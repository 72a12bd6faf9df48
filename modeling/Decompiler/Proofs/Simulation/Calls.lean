import Decompiler.Proofs.Result
import Decompiler.Simulation.Step
import Mathlib

/-!
# Straight-line code makes the same calls

A static call with a result leaves an expression on the stack, and the call is
made when an action evaluates the expression.  In between it waits, maybe
inside a larger expression, and maybe in several copies.  This file says when
the actions still make every call that the instructions execute, each once and
in the same order.

Three things can go wrong.  The copies of a value share its calls, so that both
make them; a value that is popped is evaluated only if it is itself a call, so
that the calls inside any other value are lost; and an action may come while a
value computed before it still waits.  A tally of the waiting calls, each by
its number in the order of execution, tells whether any of this happens.

* `mem_onCalls`: no call appears or vanishes, unless one is lost with a value
  that is popped.
* `Tally.Sound.step`: if every action takes the calls whose turn it is, the
  calls made are in order, and earlier than those that wait.
* `staticCalls_of_simulate`: if calls are taken in turn and none is lost, the
  actions make just the calls that the instructions execute.
* `copied_call_is_repeated`: without the condition a copied call is made twice,
  and a call inside a popped sum is lost.
-/

namespace Decompiler

/-- A descriptor that is read gives a signature. -/
theorem Signature.ofDescriptor?_of_ofDescriptor {descriptor : String}
    {signature : Signature} (h : ofDescriptor descriptor = .ok signature) :
    ofDescriptor? descriptor = some signature := by
  unfold ofDescriptor at h
  split at h <;> cases h
  assumption

namespace Expr

mutual

/-- The static methods that evaluating an expression calls, in order. -/
def staticCalls : Expr → List Member
  | instanceField e _ | length e | neg _ e | cast _ e | instanceOf _
      e | newArray _ e =>
    e.staticCalls
  | element a b _ | binary _ _ a b | compare _ a b =>
    a.staticCalls ++ b.staticCalls
  | callStatic method args => staticCallsOf args ++ [method]
  | callInstance _ receiver _ args => receiver.staticCalls ++ staticCallsOf args
  | callDynamic _ _ args | construct _ _ args | concat args | newMultiArray
      _ args =>
    staticCallsOf args
  | arrayLiteral _ size values => size.staticCalls ++ staticCallsOf values
  | _ => []

/-- The static methods that evaluating expressions one after the other calls. -/
def staticCallsOf : List Expr → List Member
  | [] => []
  | e :: es => e.staticCalls ++ staticCallsOf es

end

end Expr

/-- The static methods that an action calls, in order. -/
def Action.staticCalls : Action → List Member
  | assign _ e | assignStatic _ e | evaluate e | throw e | ret (some e) =>
    e.staticCalls
  | assignField object _ value => object.staticCalls ++ value.staticCalls
  | assignElement array index value =>
    array.staticCalls ++ index.staticCalls ++ value.staticCalls
  | increment .. | ret none => []

/-- The static method that an instruction calls. -/
def Instr.staticCall? : Instr → Option Member
  | .call .static method => some method
  | _ => none

/-- The instructions that compute with constants and local variables, move
values about and call static methods. -/
inductive Instr.IsCallCode : Instr → Prop
  | null : IsCallCode .null
  | constant (c : Literal) : IsCallCode (.constant c)
  | load (kind : Kind) (slot : Nat) : IsCallCode (.load kind slot)
  | store (kind : Kind) (slot : Nat) : IsCallCode (.store kind slot)
  | increment (slot : Nat) (delta : Int32) : IsCallCode (.increment slot delta)
  | arith (op : ArithOp) (kind : Kind) : IsCallCode (.arith op kind)
  | neg (kind : Kind) : IsCallCode (.neg kind)
  | convert (source target : Kind) : IsCallCode (.convert source target)
  | dup : IsCallCode .dup
  | dupX1 : IsCallCode .dupX1
  | swap : IsCallCode .swap
  | pop : IsCallCode .pop
  | call (method : Member) : IsCallCode (.call .static method)

/-- What is known of the calls in a value on the stack. -/
structure Pending where
  /-- The value is itself the result of a call. -/
  isCall : Bool
  /-- The calls that are made when the value is evaluated, each by its number
  in the order of execution. -/
  calls : List Nat
deriving Repr, DecidableEq

/-- How many calls have been executed, and which of them wait on the stack. -/
structure Tally where
  executed : Nat
  stack : List Pending
deriving Repr, DecidableEq

/-- The calls that wait on the stack. -/
def Tally.waiting (t : Tally) : List Nat := t.stack.flatMap (·.calls)

namespace Instr

/-- The calls that a static call stands for: those in its arguments, and then
the call itself. -/
def callsWith (n count : Nat) (s : List Pending) : List Nat :=
  (s.take count).reverse.flatMap (·.calls) ++ [n]

/-- What an instruction does to the calls that wait, and which calls its action
makes. -/
def onCalls : Instr → Tally → Option (Tally × List Nat)
  | .null, ⟨n, s⟩ | .constant _, ⟨n, s⟩ | .load .., ⟨n, s⟩ =>
    some (⟨n, ⟨false, []⟩ :: s⟩, [])
  | .store .., ⟨n, v :: s⟩ => some (⟨n, s⟩, v.calls)
  | .increment .., t => some (t, [])
  | .arith .., ⟨n, b :: a :: s⟩ =>
    some (⟨n, ⟨false, a.calls ++ b.calls⟩ :: s⟩, [])
  | .neg _, ⟨n, v :: s⟩ | .convert .., ⟨n, v :: s⟩ =>
    some (⟨n, ⟨false, v.calls⟩ :: s⟩, [])
  | .dup, ⟨n, v :: s⟩ => some (⟨n, v :: v :: s⟩, [])
  | .dupX1, ⟨n, v :: w :: s⟩ => some (⟨n, v :: w :: v :: s⟩, [])
  | .swap, ⟨n, v :: w :: s⟩ => some (⟨n, w :: v :: s⟩, [])
  | .pop, ⟨n, v :: s⟩ => some (⟨n, s⟩, if v.isCall then v.calls else [])
  | .call .static method, ⟨n, s⟩ =>
    match Signature.ofDescriptor? method.descriptor with
    | none => none
    | some signature =>
      let count := signature.parameters.length
      if s.length < count then none
      else if signature.isVoid then
        some (⟨n + 1, s.drop count⟩, callsWith n count s)
      else some (⟨n + 1, ⟨true, callsWith n count s⟩ :: s.drop count⟩, [])
  | _, _ => none

/-- Whether an instruction drops no call: a popped value that is not itself a
call leaves its calls waiting elsewhere. -/
def keepsCalls : Instr → Tally → Bool
  | .pop, ⟨_, v :: s⟩ =>
    v.isCall || v.calls.all fun c => s.any (·.calls.contains c)
  | _, _ => true

/-- Whether the calls that an action makes are taken in turn: in order, and
before every call that waits afterwards. -/
def inTurn (made : List Nat) (t : Tally) : Bool :=
  decide (made.Pairwise (· < ·)) && made.all fun c => t.waiting.all (c < ·)

/-- Whether some instructions take all calls in turn and lose none. -/
def takeTurns : List Instr → Tally → Bool
  | [], _ => true
  | i :: is, t =>
    match i.onCalls t with
    | none => true
    | some (t', made) => i.keepsCalls t && inTurn made t' && takeTurns is t'

variable {i : Instr} {t t' : Tally} {made : List Nat}

theorem onCalls_call {method : Member} {signature : Signature}
    (h : Signature.ofDescriptor? method.descriptor = some signature) (n : Nat)
    (s : List Pending) :
    (call .static method).onCalls ⟨n, s⟩ =
      if s.length < signature.parameters.length then none
      else if signature.isVoid then
        some (⟨n + 1, s.drop signature.parameters.length⟩,
          callsWith n signature.parameters.length s)
      else
        some (⟨n + 1, ⟨true, callsWith n signature.parameters.length s⟩ ::
          s.drop signature.parameters.length⟩, []) := by
  simp only [onCalls, h]

theorem of_onCalls_call {method : Member} {n : Nat} {s : List Pending}
    (h : (call .static method).onCalls ⟨n, s⟩ = some (t', made)) :
    ∃ count, (t' = ⟨n + 1, s.drop count⟩ ∧ made = callsWith n count s) ∨
      (t' = ⟨n + 1, ⟨true, callsWith n count s⟩ :: s.drop count⟩ ∧
          made = []) := by
  simp only [onCalls] at h
  split at h
  · cases h
  · rename_i signature _
    refine ⟨signature.parameters.length, ?_⟩
    split_ifs at h <;> cases h
    · exact .inl ⟨rfl, rfl⟩
    · exact .inr ⟨rfl, rfl⟩

/-- The arguments of a call take their calls along. -/
theorem mem_callsWith {s : List Pending} (n count c : Nat) :
    c ∈ callsWith n count s ∨ c ∈ (s.drop count).flatMap (·.calls) ↔
      c ∈ s.flatMap (·.calls) ∨ c = n := by
  conv_rhs => rw [← List.take_append_drop count s]
  simp only [callsWith, List.flatMap_append, List.mem_append, List.mem_flatMap,
    List.mem_reverse, List.mem_singleton]
  exact or_right_comm

/-- **No call appears or vanishes.**  The calls that an instruction makes or
leaves waiting are those that waited before and the one it executes, unless it
drops one. -/
theorem mem_onCalls (h : i.onCalls t = some (t', made))
    (hkeeps : i.keepsCalls t = true) (c : Nat) :
    c ∈ made ∨ c ∈ t'.waiting ↔ c ∈ t.waiting ∨ t.executed ≤ c ∧
      c < t'.executed := by
  have hnone (n : Nat) : ¬ (n ≤ c ∧ c < n) := by omega
  have hone (n : Nat) : n ≤ c ∧ c < n + 1 ↔ c = n := by omega
  have hcall := h
  unfold onCalls at h
  split at h
  case h_13 method n s =>
    obtain ⟨count, ⟨rfl, rfl⟩ | ⟨rfl, rfl⟩⟩ := of_onCalls_call hcall
    · simpa only [Tally.waiting, hone] using mem_callsWith n count c
    · simpa only [Tally.waiting, hone, List.flatMap_cons, List.mem_append,
        List.not_mem_nil, false_or] using mem_callsWith n count c
  case h_12 n v s =>
    cases h
    simp only [keepsCalls, Bool.or_eq_true, List.all_eq_true, List.any_eq_true,
      List.contains_iff_mem] at hkeeps
    cases hv : v.isCall with
    | true => simp [Tally.waiting]
    | false =>
      simpa [Tally.waiting, hnone] using (hkeeps.resolve_left (by simp [hv])) c
  case h_14 => cases h
  all_goals
    cases h
    simp only [Tally.waiting, hnone, List.flatMap_cons, List.mem_append,
      List.not_mem_nil, or_false, false_or]
  all_goals grind

/-- Calls are counted when they are executed. -/
theorem executed_onCalls (h : i.onCalls t = some (t', made)) :
    t'.executed = t.executed + i.staticCall?.toList.length := by
  have hcall := h
  unfold onCalls at h
  split at h
  case h_13 method n s =>
    obtain ⟨count, ⟨rfl, rfl⟩ | ⟨rfl, rfl⟩⟩ := of_onCalls_call hcall <;> rfl
  case h_14 => cases h
  all_goals
    cases h
    rfl

end Instr

/-- The calls made so far are in order, and together with those that wait they
are the calls that have been executed.  Every call that waits comes later. -/
structure Tally.Sound (done : List Nat) (t : Tally) : Prop where
  ascending : done.Pairwise (· < ·)
  before : ∀ c ∈ done, ∀ d ∈ t.waiting, c < d
  every : ∀ c, c ∈ done ∨ c ∈ t.waiting ↔ c < t.executed

/-- **One step.**  An action that takes its calls in turn goes on with them
where the calls made before have stopped. -/
theorem Tally.Sound.step {done made : List Nat} {t t' : Tally} {i : Instr}
    (h : Sound done t) (hstep : i.onCalls t = some (t', made))
    (hkeeps : i.keepsCalls t = true) (hturn : Instr.inTurn made t' = true) :
    Sound (done ++ made) t' := by
  have hmem := Instr.mem_onCalls hstep hkeeps
  have hle : t.executed ≤ t'.executed := by
    rw [Instr.executed_onCalls hstep]
    exact Nat.le_add_right _ _
  simp only [Instr.inTurn, Bool.and_eq_true, decide_eq_true_eq,
    List.all_eq_true] at hturn
  -- what is made or waits now has waited before or is new, so it comes later
  have later : ∀ c ∈ done, ∀ d, d ∈ made ∨ d ∈ t'.waiting → c < d :=
    fun c hc d hd =>
      match (hmem d).1 hd with
      | .inl hd => h.before c hc d hd
      | .inr hd => Nat.lt_of_lt_of_le ((h.every c).1 (.inl hc)) hd.1
  refine ⟨List.pairwise_append.2 ⟨h.ascending, hturn.1, fun c hc d hd =>
    later c hc d (.inl hd)⟩,
    fun c hc d hd => ?_, fun c => ?_⟩
  · rcases List.mem_append.1 hc with hc | hc
    · exact later c hc d (.inr hd)
    · exact hturn.2 c hc d hd
  · rw [List.mem_append, or_assoc, hmem, ← or_assoc, h.every]
    omega

/-- Calls that have been made in order with none left waiting are all the calls
there are. -/
theorem Tally.Sound.eq_range {done : List Nat} {t : Tally} (h : Sound done t)
    (hnone : t.waiting = []) : done = List.range t.executed := by
  refine List.Pairwise.eq_of_mem_iff h.ascending List.pairwise_lt_range fun c =>
    ?_
  have := h.every c
  simp only [hnone, List.not_mem_nil, or_false] at this
  rw [this, List.mem_range]

/-- What is pending is known of every value on a stack, given the method that
each call calls. -/
def Stack.Tells (name : Nat → Member) : Stack → List Pending → Prop :=
  List.Forall₂ fun v p => v.expr.isCall = p.isCall ∧
    v.expr.staticCalls = p.calls.map name

theorem Stack.Tells.staticCallsOf_eq {name : Nat → Member} {s : Stack}
    {ps : List Pending} (h : s.Tells name ps) :
    Expr.staticCallsOf (s.map (·.expr)) = (ps.flatMap (·.calls)).map name := by
  induction h with
  | nil => rfl
  | cons head _ ih =>
    rw [List.map_cons, Expr.staticCallsOf, ih, head.2, List.flatMap_cons,
      List.map_append]

/-- What is known of the value that is taken off a stack, and of those below
it. -/
theorem Stack.Tells.of_pop {name : Nat → Member} {s : Stack} {ps : List Pending}
    {index : Nat} {k : Value → Stack → Except Fault Outcome} {r : Outcome}
    (h : s.Tells name ps) (hk : s.pop index k = .ok r) : ∃ v rest p qs,
      ps = p :: qs ∧
      (v.expr.isCall = p.isCall ∧ v.expr.staticCalls = p.calls.map name) ∧
      Stack.Tells name rest qs ∧ k v rest = .ok r := by
  cases h with
  | nil => cases hk
  | @cons v p rest qs head tail => exact ⟨v, rest, p, qs, rfl, head, tail, hk⟩

namespace Context

variable {ctx : Context} {name : Nat → Member} {s s' : Stack} {t : Tally}

/-- A call on the stack calls what is pending in its arguments, and itself. -/
theorem staticCalls_call {ps : List Pending} (hs : s.Tells name ps)
    (n count : Nat) :
    (Expr.callStatic (name n)
        ((s.take count).reverse.map (·.expr))).staticCalls =
      (Instr.callsWith n count ps).map name := by
  have args : Stack.Tells name (s.take count).reverse (ps.take count).reverse :=
    List.rel_reverse (List.forall₂_take count hs)
  rw [Expr.staticCalls, args.staticCallsOf_eq, Instr.callsWith, List.map_append,
    List.map_singleton]

/-- **One instruction.**  The tally tells which calls the actions make, and what
is pending afterwards. -/
theorem tells_step {index : Nat} {i : Instr} {actions : List Action}
    (hi : i.IsCallCode) (hs : s.Tells name t.stack)
    (hname : ∀ m, i = .call .static m → name t.executed = m)
    (hsim : ctx.step index i s = .ok (s', actions)) :
    ∃ t' made, i.onCalls t = some (t', made) ∧ s'.Tells name t'.stack ∧
      actions.flatMap Action.staticCalls = made.map name := by
  obtain ⟨n, ps⟩ := t
  cases hi with
  | null | load _ _ =>
    cases hsim
    exact ⟨_, _, rfl, .cons ⟨rfl, rfl⟩ hs, rfl⟩
  | constant c =>
    cases hsim
    exact ⟨_, _, rfl, .cons ⟨by cases c <;> rfl, by cases c <;> rfl⟩ hs, rfl⟩
  | increment _ _ =>
    cases hsim
    exact ⟨_, _, rfl, hs, rfl⟩
  | store _ _ =>
    obtain ⟨v, rest, p, qs, rfl, hv, hrest, hsim⟩ := hs.of_pop hsim
    cases hsim
    exact ⟨_, _, rfl, hrest, by simp [Action.staticCalls, hv.2]⟩
  | arith _ _ =>
    obtain ⟨b, rest, p, qs, rfl, hb, hrest, hsim⟩ := hs.of_pop hsim
    obtain ⟨a, rest, q, qs, rfl, ha, hrest, hsim⟩ := hrest.of_pop hsim
    cases hsim
    exact ⟨_, _, rfl, .cons ⟨rfl, by simp [Expr.staticCalls, ha.2, hb.2]⟩ hrest,
      rfl⟩
  | neg _ | convert _ _ =>
    obtain ⟨v, rest, p, qs, rfl, hv, hrest, hsim⟩ := hs.of_pop hsim
    cases hsim
    exact ⟨_, _, rfl, .cons ⟨rfl, by simp [Expr.staticCalls, hv.2]⟩ hrest, rfl⟩
  | dup =>
    obtain ⟨v, rest, p, qs, rfl, hv, hrest, hsim⟩ := hs.of_pop hsim
    cases hsim
    exact ⟨_, _, rfl, .cons hv (.cons hv hrest), rfl⟩
  | dupX1 =>
    obtain ⟨v, rest, p, qs, rfl, hv, hrest, hsim⟩ := hs.of_pop hsim
    obtain ⟨w, rest, q, qs, rfl, hw, hrest, hsim⟩ := hrest.of_pop hsim
    cases hsim
    exact ⟨_, _, rfl, .cons hv (.cons hw (.cons hv hrest)), rfl⟩
  | swap =>
    obtain ⟨v, rest, p, qs, rfl, hv, hrest, hsim⟩ := hs.of_pop hsim
    obtain ⟨w, rest, q, qs, rfl, hw, hrest, hsim⟩ := hrest.of_pop hsim
    cases hsim
    exact ⟨_, _, rfl, .cons hw (.cons hv hrest), rfl⟩
  | pop =>
    obtain ⟨v, rest, p, qs, rfl, hv, hrest, hsim⟩ := hs.of_pop hsim
    cases hsim
    refine ⟨_, _, rfl, hrest, ?_⟩
    rw [Value.discard, hv.1]
    split_ifs
    · simp [Action.staticCalls, hv.2]
    · rfl
  | call m =>
    obtain ⟨signature, hsig, hsim⟩ := bind_eq_ok.1 hsim
    rw [Instr.onCalls_call (Signature.ofDescriptor?_of_ofDescriptor hsig)]
    simp only [Stack.popMany, hs.length_eq] at hsim
    obtain rfl := hname m rfl
    split_ifs at hsim ⊢ with hshort hvoid
    · rw [afterCall, if_pos hvoid] at hsim
      cases hsim
      refine ⟨_, _, rfl, List.forall₂_drop _ hs, ?_⟩
      rw [List.flatMap_singleton, Action.staticCalls]
      exact staticCalls_call hs n _
    · rw [afterCall, if_neg hvoid] at hsim
      cases hsim
      exact ⟨_, _, rfl, .cons ⟨rfl, staticCalls_call hs n _⟩
        (List.forall₂_drop _ hs), rfl⟩

/-- **A run.**  If calls are taken in turn and none is lost, the actions make
the calls that are next in the order of execution. -/
theorem sound_run {code : List (Nat × Instr)} {actions : List Action}
    {done : List Nat} (hcode : ∀ p ∈ code, p.2.IsCallCode)
    (hs : s.Tells name t.stack)
    (hname : ∀ k m, (code.filterMap (·.2.staticCall?))[k]? = some m →
      name (t.executed + k) = m)
    (hturn : Instr.takeTurns (code.map (·.2)) t = true) (hdone : t.Sound done)
    (hsim : ctx.run code s = .ok (s', actions)) :
    ∃ (t' : Tally) (made : List Nat), s'.Tells name t'.stack ∧
      t'.Sound (done ++ made) ∧
      t'.executed = t.executed + (code.filterMap (·.2.staticCall?)).length ∧
        actions.flatMap Action.staticCalls = made.map name := by
  induction code generalizing s t actions done with
  | nil =>
    cases hsim
    exact ⟨t, [], hs, by simpa using hdone, rfl, rfl⟩
  | cons p code ih =>
    obtain ⟨index, i⟩ := p
    obtain ⟨⟨s₁, first⟩, hfirst, hsim⟩ := bind_eq_ok.1 hsim
    obtain ⟨⟨s₂, others⟩, hothers, hsim⟩ := bind_eq_ok.1 hsim
    cases hsim
    have hi : i.IsCallCode := hcode (index, i) List.mem_cons_self
    obtain ⟨t₁, made, hstep, hs₁, hmade⟩ := tells_step hi hs
      (fun m hm => by simpa [hm, Instr.staticCall?] using hname 0) hfirst
    simp only [List.map_cons, Instr.takeTurns, hstep, Bool.and_eq_true] at hturn
    obtain ⟨⟨hkeeps, hnow⟩, hturn⟩ := hturn
    have hexecuted := Instr.executed_onCalls hstep
    have hlist : ((index, i) :: code).filterMap (·.2.staticCall?) =
        i.staticCall?.toList ++ code.filterMap (·.2.staticCall?) := by
      cases hcall : i.staticCall? <;> simp [hcall]
    obtain ⟨t', rest, hs', hsound, hcount, hrest⟩ := ih
      (fun p hp => hcode p (List.mem_cons_of_mem _ hp)) hs₁
      (fun k m hk => by
        rw [hexecuted, Nat.add_assoc]
        refine hname _ m ?_
        rw [hlist, List.getElem?_append_right (Nat.le_add_right _ _),
          Nat.add_sub_cancel_left, hk])
      hturn (hdone.step hstep hkeeps hnow) hothers
    refine ⟨t', made ++ rest, hs', by rwa [← List.append_assoc], ?_, ?_⟩
    · rw [hcount, hexecuted, hlist, List.length_append, Nat.add_assoc]
    · rw [List.flatMap_append, hmade, hrest, List.map_append]

end Context

/-- **Calls are kept.**  When calls are taken in turn and none is lost, the
actions of straight-line code that leaves nothing on the stack make the calls
that the instructions execute, each once and in the same order. -/
theorem staticCalls_of_simulate {ctx : Context} {start stop : Nat}
    {actions : List Action}
    (hcode : ∀ p ∈ ctx.method.slice start stop, p.2.IsCallCode)
    (hturn : Instr.takeTurns ((ctx.method.slice start stop).map (·.2))
      ⟨0, []⟩ = true)
    (hsim : ctx.simulate start stop [] = .ok ([], actions)) :
    actions.flatMap Action.staticCalls =
      (ctx.method.slice start stop).filterMap (·.2.staticCall?) := by
  let executed := (ctx.method.slice start stop).filterMap (·.2.staticCall?)
  let name (k : Nat) : Member := executed.getD k ⟨"", "", ""⟩
  have hname : ∀ k m, executed[k]? = some m → name (0 + k) = m :=
    fun k m hk => by
      simp [name, List.getD_eq_getElem?_getD, hk]
  have hempty : Stack.Tells name [] (Tally.mk 0 []).stack := .nil
  obtain ⟨t', made, hs, hsound, hcount, hmade⟩ :=
    Context.sound_run hcode hempty hname hturn
      ⟨.nil, by simp, by simp [Tally.waiting]⟩ hsim
  rw [List.nil_append] at hsound
  have hnone : t'.stack = [] := List.forall₂_nil_left_iff.1 hs
  rw [hmade, hsound.eq_range (by simp [Tally.waiting, hnone]), hcount]
  refine List.ext_getElem (by simp) fun k _ hk => ?_
  simp [name, executed, List.getElem?_eq_getElem hk]

/-- Two calls wait on the stack, one of them below a copied constant, and are
made by the store; the next two are made at once. -/
theorem staticCalls_of_nested_calls :
    let call (name descriptor : String) : Instr :=
  .call .static ⟨"C", name, descriptor⟩
    let m : Method :=
      { instrs := [call "f" "()I", .constant (.int 3), .dupX1, .arith .add .int,
          call "g" "(II)I", .convert .int .long, .store .long 1,
          call "h" "()I", .pop, call "v" "()V"], ranges := [] }
    ∃ actions,
      (∀ p ∈ m.slice 0 10, p.2.IsCallCode) ∧
      Instr.takeTurns ((m.slice 0 10).map (·.2)) ⟨0, []⟩ = true ∧
      Context.simulate ⟨m, LocalTable.empty.lookup, {}⟩ 0 10 [] =
      .ok ([], actions) ∧ actions.flatMap Action.staticCalls =
        [⟨"C", "f", "()I"⟩, ⟨"C", "g", "(II)I"⟩, ⟨"C", "h", "()I"⟩,
          ⟨"C", "v", "()V"⟩] := by
  intro call m
  let ctx : Context := ⟨m, LocalTable.empty.lookup, {}⟩
  have hcode : ∀ p ∈ ctx.method.slice 0 10, p.2.IsCallCode := by
    simp only [ctx, m, Method.slice, List.take, List.drop, List.zipIdx,
      List.map, List.mem_cons, List.not_mem_nil, or_false]
    rintro p (rfl | rfl | rfl | rfl | rfl | rfl | rfl | rfl | rfl | rfl) <;>
      constructor
  have hturn : Instr.takeTurns ((ctx.method.slice 0 10).map (·.2)) ⟨0, []⟩ =
      true := by decide
  have hsim : ctx.simulate 0 10 [] = .ok ([], _) := rfl
  exact ⟨_, hcode, hturn, hsim, staticCalls_of_simulate hcode hturn hsim⟩

/-- A call whose value is copied is made by both copies.  A call inside a sum
that is popped is not made at all. -/
theorem copied_call_is_repeated :
    let f : Member := ⟨"C", "f", "()I"⟩
    let copied : Method :=
      { instrs := [.call .static f, .dup, .store .int 1, .store .int 2],
        ranges := [] }
    let popped : Method :=
      { instrs := [.call .static f, .constant (.int 1), .arith .add .int, .pop],
        ranges := [] }
    (∃ actions,
      Context.simulate ⟨copied, LocalTable.empty.lookup, {}⟩ 0 4 [] =
      .ok ([], actions) ∧
        (copied.slice 0 4).filterMap (·.2.staticCall?) = [f] ∧
        actions.flatMap Action.staticCalls = [f, f]) ∧
    ∃ actions,
      Context.simulate ⟨popped, LocalTable.empty.lookup, {}⟩ 0 4 [] =
      .ok ([], actions) ∧
        (popped.slice 0 4).filterMap (·.2.staticCall?) = [f] ∧
        actions.flatMap Action.staticCalls = [] := by
  exact ⟨⟨_, rfl, rfl, rfl⟩, _, rfl, rfl, rfl⟩

end Decompiler
