import Decompiler.Bytecode.Effect
import Decompiler.Proofs.Simulation.Compiled
import Mathlib

/-!
# How deep the stack is

The effect of an instruction tells how many values it takes and leaves, without
looking at them.  What the simulation does depends on the values in two places.
A pair of slots may hold one wide value, and the instructions that work on pairs
of slots then take and leave fewer values.  A constructor call that completes an
object leaves nothing, whatever its descriptor says.

* `Instr.effectOn`: the effect of an instruction on a stack, with these two seen
  to.
* `Counts`: an outcome with this effect, or an underflow if there are too few
  values; one rule for each way in which an instruction uses the stack.
* `counts_step`: the simulation of an instruction has its effect on the stack.
* `map_length_simulate`: where the two effects are the same, the depth after a
  run, or the first underflow, is found from the effects alone.
-/

namespace Decompiler

/-- Whether the value at a position from the top takes two slots. -/
def Stack.wideAt (s : Stack) (n : Nat) : Bool := s[n]?.any (·.expr.isWide)

@[simp] theorem Stack.wideAt_zero (v : Value) (s : Stack) :
    Stack.wideAt (v :: s) 0 = v.expr.isWide := rfl

@[simp] theorem Stack.wideAt_succ (v : Value) (s : Stack) (n : Nat) :
    Stack.wideAt (v :: s) (n + 1) = s.wideAt n := rfl

/-- Whether an object waits for its constructor. -/
def Expr.isUninitialized : Expr → Bool
  | uninitialized _ => true
  | _ => false

theorem Expr.isUninitialized_iff {e : Expr} :
    e.isUninitialized = true ↔ ∃ type, e = .uninitialized type := by
  cases e <;> simp [isUninitialized]

/-- Whether a call completes an object: it calls a constructor, and the value
below the arguments waits for one. -/
def Stack.completes (s : Stack) (how : CallKind) (method : Member)
    (arguments : Nat) : Bool :=
  how != .static && method.isConstructor &&
    s[arguments]?.any (·.expr.isUninitialized)

/-- The effect of an instruction on a stack. -/
def Instr.effectOn (s : Stack) : Instr → Except Fault Effect
  | pop2 => .ok (if s.wideAt 0 then ⟨1, 0⟩ else ⟨2, 0⟩)
  | dupX2 => .ok (if s.wideAt 1 then ⟨2, 3⟩ else ⟨3, 4⟩)
  | dup2 => .ok (if s.wideAt 0 then ⟨1, 2⟩ else ⟨2, 4⟩)
  | dup2X1 => .ok (if s.wideAt 0 then ⟨2, 3⟩ else ⟨3, 5⟩)
  | dup2X2 =>
    .ok (if s.wideAt 0 then (if s.wideAt 1 then ⟨2, 3⟩ else ⟨3, 4⟩)
      else if s.wideAt 2 then ⟨3, 5⟩ else ⟨4, 6⟩)
  | call how method => do
    let signature ← Signature.ofDescriptor method.descriptor
    let e ← (call how method).effect
    return if s.completes how method signature.parameters.length then
      { e with pushes := 0 } else e
  | i => i.effect

/-- Whether an instruction works on values only: it directs no control to a
label and takes no lock. -/
def Instr.IsData (i : Instr) : Prop :=
  i.control ∉ [.jump, .branch, .switch] ∧ i ∉ [.monitorEnter, .monitorExit]

/-- An outcome of the instruction at `index` that takes and leaves as many
values as told, or an underflow if there are too few of them.  What leaves a
value performs no action. -/
def Counts (index depth pops pushes : Nat) : Except Fault Outcome → Prop
  | .ok (t, actions) =>
    pops ≤ depth ∧ t.length + pops = depth + pushes ∧
      (pushes ≠ 0 → actions = [])
  | .error f => depth < pops ∧ f = .stackUnderflow index

namespace Counts

variable {index p q : Nat} {s : Stack}

/-- An action leaves the stack as deep as it is. -/
theorem act {t : Stack} {depth : Nat} (h : t.length = depth)
    (actions : List Action) : Counts index depth 0 0 (.ok (t, actions)) :=
  ⟨Nat.zero_le _, by omega, fun h => absurd rfl h⟩

/-- What is left at the end counts as pushed. -/
theorem keep {t : Stack} {depth : Nat} (h : t.length = depth + q) :
    Counts index depth 0 q (.ok (t, [])) :=
  ⟨Nat.zero_le _, by omega, fun _ => rfl⟩

theorem bind {α : Type} {depth : Nat} {x : Except Fault α} {a : α}
    {f : α → Except Fault Outcome} (hx : x = .ok a)
    (h : Counts index depth p q (f a)) : Counts index depth p q (x >>= f) := by
  subst hx
  exact h

/-- Every value that is taken counts. -/
theorem pop {k : Value → Stack → Except Fault Outcome}
    (h : ∀ v rest, s = v :: rest → Counts index rest.length p q (k v rest)) :
    Counts index s.length (p + 1) q (s.pop index k) := by
  cases s with
  | nil => exact ⟨Nat.succ_pos _, rfl⟩
  | cons v rest =>
    have hk := h v rest rfl
    show Counts index (rest.length + 1) (p + 1) q (k v rest)
    revert hk
    cases k v rest with
    | error f => exact fun ⟨hlt, hf⟩ => ⟨Nat.succ_lt_succ hlt, hf⟩
    | ok r =>
      exact fun ⟨hle, hlen, hact⟩ => ⟨Nat.succ_le_succ hle, by omega, hact⟩

/-- A wide value on top is taken as a pair of slots. -/
theorem popWide {narrow wide : Value → Stack → Except Fault Outcome}
    (hwide : s.wideAt 0 = true)
    (h : ∀ v rest, s = v :: rest → Counts index rest.length p q (wide v rest)) :
    Counts index s.length (p + 1) q
      (s.pop index fun v rest => if v.expr.isWide then wide v rest
          else narrow v rest) := by
  refine .pop ?_
  rintro v rest rfl
  rw [if_pos (show v.expr.isWide = true from hwide)]
  exact h v rest rfl

/-- A narrow value on top is one slot of a pair. -/
theorem popNarrow {narrow wide : Value → Stack → Except Fault Outcome}
    (hnarrow : ¬s.wideAt 0 = true)
    (h : ∀ v rest, s = v :: rest →
      Counts index rest.length p q (narrow v rest)) :
    Counts index s.length (p + 1) q
      (s.pop index fun v rest => if v.expr.isWide then wide v rest
          else narrow v rest) := by
  refine .pop ?_
  rintro v rest rfl
  rw [if_neg (show ¬v.expr.isWide = true from hnarrow)]
  exact h v rest rfl

/-- Many values at a time count as many. -/
theorem popMany {n : Nat} {k : List Expr → Stack → Except Fault Outcome}
    (h : ∀ es, Counts index (s.drop n).length p q (k es (s.drop n))) :
    Counts index s.length (n + p) q (s.popMany index n k) := by
  unfold Stack.popMany
  rcases Nat.lt_or_ge s.length n with hlt | hge
  · rw [if_pos hlt]
    exact ⟨by omega, rfl⟩
  · rw [if_neg (Nat.not_lt.2 hge)]
    have hk := h ((s.take n).reverse.map (·.expr))
    have hlength : (s.drop n).length = s.length - n := List.length_drop
    rw [hlength] at hk
    revert hk
    cases k ((s.take n).reverse.map (·.expr)) (s.drop n) with
    | error f => exact fun ⟨hlt, hf⟩ => ⟨by omega, hf⟩
    | ok r => exact fun ⟨hle, hlen, hact⟩ => ⟨by omega, by omega, hact⟩

end Counts

variable {ctx : Context} {index : Nat} {s : Stack} {i : Instr} {e : Effect}

/-- A call for a result leaves it, and a call for nothing is an action. -/
theorem counts_afterCall {depth : Nat} (h : s.length = depth) (isVoid : Bool)
    (call : Expr) :
    Counts index depth 0 (if isVoid then 0 else 1)
      (.ok (Context.afterCall index isVoid call s)) := by
  cases isVoid with
  | true => exact .act h _
  | false => exact .keep (congrArg (· + 1) h)

/-- A store into an array leaves as many values as there were, even if it
completes some of them. -/
theorem counts_storeElement (array position value : Value) :
    Counts index s.length 0 0
      (.ok (ctx.storeElement index array position value s)) := by
  unfold Context.storeElement
  simp only
  split
  · split
    · exact .act (Stack.length_replace _ _ _) _
    · exact .act rfl _
  · exact .act rfl _

/-- The effect of a call that is described. -/
theorem Instr.effect_call {how : CallKind} {method : Member}
    {signature : Signature}
    (h : Signature.ofDescriptor method.descriptor = .ok signature) :
    (call how method).effect =
      .ok (signature.effect (if how = .static then 0 else 1)) := by
  cases how <;> simp only [effect, h] <;> rfl

/-- A call that completes no object goes on like any other. -/
theorem callInstance_of_not_completes {receiver : Value} {method : Member}
    {signature : Signature}
    (h : ¬(method.isConstructor && receiver.expr.isUninitialized) = true)
    (how : CallKind) (args : List Expr) :
    ∃ call, ctx.callInstance index how receiver method signature args s =
      Context.afterCall index signature.isVoid call s := by
  unfold Context.callInstance
  split
  · rename_i hconstructor hreceiver
    rw [hconstructor, hreceiver] at h
    exact absurd rfl h
  · exact ⟨_, rfl⟩

/-- A call on a receiver leaves its result, unless it completes the receiver. -/
theorem counts_callInstance {receiver : Value} {method : Member}
    {signature : Signature} {depth : Nat} (h : s.length = depth)
    (how : CallKind) (args : List Expr) :
    Counts index depth 0
      (if (method.isConstructor && receiver.expr.isUninitialized) = true then 0
        else if signature.isVoid then 0 else 1)
      (.ok (ctx.callInstance index how receiver method signature args s)) := by
  by_cases hcompletes :
    (method.isConstructor && receiver.expr.isUninitialized) = true
  · rw [if_pos hcompletes]
    obtain ⟨hconstructor, hreceiver⟩ := Bool.and_eq_true_iff.1 hcompletes
    obtain ⟨type, htype⟩ := Expr.isUninitialized_iff.1 hreceiver
    rw [Context.callInstance, hconstructor, htype]
    simp only
    split
    · exact .act (by rw [Stack.length_replace, h]) _
    · exact .act h _
  · rw [if_neg hcompletes]
    obtain ⟨call, hcall⟩ :
        ∃ call, ctx.callInstance index how receiver method signature args s =
        Context.afterCall index signature.isVoid call s :=
      callInstance_of_not_completes hcompletes how args
    rw [hcall]
    exact counts_afterCall h _ _

/-- A call has its effect on the stack. -/
theorem counts_call {how : CallKind} {method : Member}
    (he : (Instr.call how method).effectOn s = .ok e) :
    Counts index s.length e.pops e.pushes
      (ctx.step index (.call how method) s) := by
  obtain ⟨signature, hsignature, he⟩ := bind_eq_ok.1 he
  rw [Instr.effect_call hsignature] at he
  by_cases hhow : how = .static
  · subst hhow
    cases he
    exact .bind hsignature (.popMany fun _ => counts_afterCall rfl _ _)
  · rw [Context.step_call hhow]
    rw [if_neg hhow] at he
    refine .bind hsignature ?_
    have hpops : e.pops = signature.parameters.length + 1 := by
      cases he
      split <;> rfl
    rw [hpops]
    refine .popMany fun args => .pop fun receiver rest hrest => ?_
    have hreceiver : s[signature.parameters.length]? = some receiver := by
      rw [← List.head?_drop, hrest, List.head?_cons]
    have hpushes :
        e.pushes = if (method.isConstructor && receiver.expr.isUninitialized) =
        true
        then 0 else if signature.isVoid then 0 else 1 := by
      cases he
      have hinstance : (how != .static) = true := bne_iff_ne.2 hhow
      simp only [Stack.completes, hreceiver, Option.any_some, hinstance,
        Bool.true_and]
      split <;> rfl
    rw [hpushes]
    exact counts_callInstance rfl how args

theorem counts_pop2 (he : Instr.pop2.effectOn s = .ok e) :
    Counts index s.length e.pops e.pushes (ctx.step index .pop2 s) := by
  by_cases hv : s.wideAt 0 = true
  · rw [Instr.effectOn, if_pos hv] at he
    cases he
    exact .popWide (p := 0) hv fun _ _ _ => .act rfl _
  · rw [Instr.effectOn, if_neg hv] at he
    cases he
    exact .popNarrow (p := 1) hv fun _ _ _ => .pop fun _ _ _ => .act rfl _

theorem counts_dup2 (he : Instr.dup2.effectOn s = .ok e) :
    Counts index s.length e.pops e.pushes (ctx.step index .dup2 s) := by
  by_cases hv : s.wideAt 0 = true
  · rw [Instr.effectOn, if_pos hv] at he
    cases he
    exact .popWide (p := 0) hv fun _ _ _ => .keep rfl
  · rw [Instr.effectOn, if_neg hv] at he
    cases he
    exact .popNarrow (p := 1) hv fun _ _ _ => .pop fun _ _ _ => .keep rfl

/-- Copying a slot over two others: the pair is below the value that is
copied. -/
theorem counts_dupX2 (he : Instr.dupX2.effectOn s = .ok e) :
    Counts index s.length e.pops e.pushes (ctx.step index .dupX2 s) := by
  by_cases hw : s.wideAt 1 = true
  · rw [Instr.effectOn, if_pos hw] at he
    cases he
    refine .pop (p := 1) ?_
    rintro v rest rfl
    exact .popWide (p := 0) hw fun _ _ _ => .keep rfl
  · rw [Instr.effectOn, if_neg hw] at he
    cases he
    refine .pop (p := 2) ?_
    rintro v rest rfl
    exact .popNarrow (p := 1) hw fun _ _ _ => .pop fun _ _ _ => .keep rfl

/-- Copying two slots over another: the pair is the value that is copied. -/
theorem counts_dup2X1 (he : Instr.dup2X1.effectOn s = .ok e) :
    Counts index s.length e.pops e.pushes (ctx.step index .dup2X1 s) := by
  by_cases hv : s.wideAt 0 = true
  · rw [Instr.effectOn, if_pos hv] at he
    cases he
    refine .pop (p := 1) ?_
    rintro v rest rfl
    simp only [if_pos (show v.expr.isWide = true from hv)]
    exact .pop fun _ _ _ => .keep rfl
  · rw [Instr.effectOn, if_neg hv] at he
    cases he
    refine .pop (p := 2) ?_
    rintro v rest rfl
    simp only [if_neg (show ¬v.expr.isWide = true from hv)]
    exact .pop fun _ _ _ => .pop fun _ _ _ => .keep rfl

/-- Copying two slots over two others.  The pair that is copied is one wide
value or two narrow ones, and so is the pair below it. -/
theorem counts_dup2X2 (he : Instr.dup2X2.effectOn s = .ok e) :
    Counts index s.length e.pops e.pushes (ctx.step index .dup2X2 s) := by
  by_cases hv : s.wideAt 0 = true
  · by_cases hw : s.wideAt 1 = true
    · rw [Instr.effectOn, if_pos hv, if_pos hw] at he
      cases he
      refine .pop (p := 1) ?_
      rintro v rest rfl
      refine .pop (p := 0) ?_
      rintro w rest rfl
      rw [show v.expr.isWide = true from hv, show w.expr.isWide = true from hw]
      exact .keep rfl
    · rw [Instr.effectOn, if_pos hv, if_neg hw] at he
      cases he
      refine .pop (p := 2) ?_
      rintro v rest rfl
      refine .pop (p := 1) ?_
      rintro w rest rfl
      rw [show v.expr.isWide = true from hv,
        show w.expr.isWide = false from eq_false_of_ne_true hw]
      exact .pop fun _ _ _ => .keep rfl
  · by_cases hx : s.wideAt 2 = true
    · rw [Instr.effectOn, if_neg hv, if_pos hx] at he
      cases he
      refine .pop (p := 2) ?_
      rintro v rest rfl
      refine .pop (p := 1) fun w rest hs => ?_
      subst hs
      rw [show v.expr.isWide = false from eq_false_of_ne_true hv]
      exact .popWide (p := 0) hx fun _ _ _ => .keep rfl
    · rw [Instr.effectOn, if_neg hv, if_neg hx] at he
      cases he
      refine .pop (p := 3) ?_
      rintro v rest rfl
      refine .pop (p := 2) ?_
      rintro w rest rfl
      rw [show v.expr.isWide = false from eq_false_of_ne_true hv]
      exact .popNarrow (p := 1) hx fun _ _ _ => .pop fun _ _ _ => .keep rfl

/-- **One instruction** has its effect on the stack. -/
theorem counts_step (hi : i.IsData) (he : i.effectOn s = .ok e) :
    Counts index s.length e.pops e.pushes (ctx.step index i s) := by
  cases i with
  | label | line | frame | nop | increment =>
    cases he
    exact .act rfl _
  | null | constant | load | getStatic | new =>
    cases he
    exact .keep rfl
  | store | throw | putStatic | pop =>
    cases he
    exact .pop fun _ _ _ => .act rfl _
  | arrayLoad | arith | compare =>
    cases he
    exact .pop fun _ _ _ => .pop fun _ _ _ => .keep rfl
  | arrayStore =>
    cases he
    exact .pop fun _ _ _ => .pop fun _ _ _ => .pop fun _ _ _ =>
      counts_storeElement _ _ _
  | pop2 => exact counts_pop2 he
  | dup =>
    cases he
    exact .pop fun _ _ _ => .keep rfl
  | dupX1 | swap =>
    cases he
    exact .pop fun _ _ _ => .pop fun _ _ _ => .keep rfl
  | dupX2 => exact counts_dupX2 he
  | dup2 => exact counts_dup2 he
  | dup2X1 => exact counts_dup2X1 he
  | dup2X2 => exact counts_dup2X2 he
  | neg | convert | getField | newArray | arrayLength | checkCast | instanceOf =>
    cases he
    exact .pop fun _ _ _ => .keep rfl
  | ret kind =>
    cases he
    cases kind with
    | none => exact .act rfl _
    | some _ => exact .pop fun _ _ _ => .act rfl _
  | putField =>
    cases he
    exact .pop fun _ _ _ => .pop fun _ _ _ => .act rfl _
  | call how method => exact counts_call he
  | callDynamic name descriptor =>
    obtain ⟨signature, hsignature, he⟩ := map_eq_ok.1 he
    cases he
    exact .bind hsignature (.popMany fun _ => counts_afterCall rfl _ _)
  | newMultiArray descriptor dimensions =>
    cases he
    rw [Context.step]
    exact .popMany (p := 0) fun _ => .keep rfl
  | ifZero | ifInts | ifReferences | ifNull | ifNonNull | goto | tableSwitch | lookupSwitch =>
    exact absurd hi.1 (by simp [Instr.control])
  | monitorEnter | monitorExit => exact absurd hi.2 (by simp)

/-! ## Where the effect does not depend on the values -/

/-- An instruction whose effect tells all: it does not work on pairs of slots,
and if it calls a constructor then for no result. -/
structure Instr.Regular (i : Instr) : Prop where
  data : i.IsData
  single : i ∉ [.pop2, .dupX2, .dup2, .dup2X1, .dup2X2]
  described : ∃ e, i.effect = .ok e
  constructs : ∀ how method signature, i = .call how method →
    method.isConstructor = true → Signature.ofDescriptor method.descriptor =
    .ok signature → signature.isVoid = true

theorem Instr.Regular.effectOn_eq (h : i.Regular) (s : Stack) :
    i.effectOn s = i.effect := by
  cases i with
  | pop2 | dupX2 | dup2 | dup2X1 | dup2X2 => exact absurd h.single (by simp)
  | call how method =>
    obtain ⟨signature, hsignature⟩ : ∃ signature,
        Signature.ofDescriptor method.descriptor = .ok signature := by
      obtain ⟨e, he⟩ := h.described
      cases how <;> exact (map_eq_ok.1 he).imp fun _ h => h.1
    rw [effectOn, effect_call hsignature, hsignature]
    show Except.ok _ = Except.ok _
    split
    · rename_i hcompletes
      have hconstructor : method.isConstructor = true := by
        simp only [Stack.completes, Bool.and_eq_true] at hcompletes
        exact hcompletes.1.2
      have hvoid :=
        h.constructs how method signature rfl hconstructor hsignature
      rw [Signature.effect, if_pos hvoid]
    · rfl
  | _ => rfl

/-- The depth after instructions that are run with some depth, found from their
effects alone.  The first one that takes more values than there are
underflows. -/
def Instr.depthAfter : List (Nat × Instr) → (depth : Nat) → Except Fault Nat
  | [], depth => .ok depth
  | (index, i) :: rest, depth => do
    let e ← i.effect
    if depth < e.pops then .error (.stackUnderflow index)
    else depthAfter rest (depth - e.pops + e.pushes)

/-- Without an underflow, the depth changes by all that is left and all that is
taken. -/
theorem Instr.depthAfter_add {xs : List (Nat × Instr)} {depth last : Nat}
    {effects : List Effect} (h : depthAfter xs depth = .ok last)
    (heffects : xs.mapM (·.2.effect) = .ok effects) :
    last + (effects.map (·.pops)).sum = depth +
      (effects.map (·.pushes)).sum := by
  induction xs generalizing depth effects with
  | nil =>
    cases h
    cases heffects
    rfl
  | cons x xs ih =>
    rw [List.mapM_cons] at heffects
    obtain ⟨e, he, heffects⟩ := bind_eq_ok.1 heffects
    obtain ⟨others, hothers, heffects⟩ := bind_eq_ok.1 heffects
    cases heffects
    obtain ⟨e', he', h⟩ := bind_eq_ok.1 h
    obtain rfl : e = e' := Except.ok.inj (he.symm.trans he')
    split at h
    · cases h
    · have hrest := ih h hothers
      simp only [List.map_cons, List.sum_cons]
      omega

/-- A run is as deep as the effects of its instructions tell. -/
theorem map_length_run {xs : List (Nat × Instr)} (h : ∀ x ∈ xs, x.2.Regular)
    (s : Stack) :
    (fun r => r.1.length) <$> ctx.run xs s = Instr.depthAfter xs s.length := by
  induction xs generalizing s with
  | nil => rfl
  | cons x xs ih =>
    obtain ⟨hx, hxs⟩ := List.forall_mem_cons.1 h
    obtain ⟨e, he⟩ := hx.described
    have hstep : Counts x.1 s.length e.pops e.pushes (ctx.step x.1 x.2 s) :=
      counts_step hx.data ((hx.effectOn_eq s).trans he)
    rw [Context.run, Instr.depthAfter, he]
    revert hstep
    cases ctx.step x.1 x.2 s with
    | error f =>
      rintro ⟨hlt, rfl⟩
      exact (if_pos hlt).symm
    | ok r =>
      rintro ⟨hle, hlength, -⟩
      have hdepth : s.length - e.pops + e.pushes = r.1.length := by omega
      refine Eq.trans ?_ (if_neg (Nat.not_lt.2 hle)).symm
      rw [hdepth, ← ih hxs r.1]
      show _ <$> (ctx.run xs r.1 >>= fun q => .ok (q.1, r.2 ++ q.2)) = _
      cases ctx.run xs r.1 <;> rfl

theorem exists_effects {xs : List (Nat × Instr)} (h : ∀ x ∈ xs, x.2.Regular) :
    ∃ effects, xs.mapM (·.2.effect) = .ok effects := by
  induction xs with
  | nil => exact ⟨[], rfl⟩
  | cons x xs ih =>
    obtain ⟨hx, hxs⟩ := List.forall_mem_cons.1 h
    obtain ⟨e, he⟩ := hx.described
    obtain ⟨effects, heffects⟩ := ih hxs
    refine ⟨e :: effects, ?_⟩
    rw [List.mapM_cons, he, heffects]
    rfl

/-- **Declared and simulated effects agree.**  Instructions whose effect tells
all underflow where their effects say so, and nothing else can go wrong with
them.  Without an underflow the depth changes by the sum of their effects. -/
theorem map_length_simulate {start stop : Nat}
    (h : ∀ x ∈ ctx.method.slice start stop, x.2.Regular) (s : Stack) :
    (fun r => r.1.length) <$> ctx.simulate start stop s =
      Instr.depthAfter (ctx.method.slice start stop) s.length ∧
    ∃ effects, (ctx.method.slice start stop).mapM (·.2.effect) = .ok effects ∧
      ∀ t actions, ctx.simulate start stop s = .ok (t, actions) →
        t.length + (effects.map (·.pops)).sum = s.length +
          (effects.map (·.pushes)).sum := by
  have hdepth : (fun r => r.1.length) <$> ctx.simulate start stop s =
      Instr.depthAfter (ctx.method.slice start stop) s.length :=
        map_length_run h s
  obtain ⟨effects, heffects⟩ := exists_effects h
  refine ⟨hdepth, effects, heffects, fun t actions hrun => ?_⟩
  rw [hrun] at hdepth
  exact Instr.depthAfter_add hdepth.symm heffects

/-- A new object is completed, and then a call takes it.  One more call has
nothing to take. -/
theorem map_length_simulate_new :
    let call : Instr := .call .virtual ⟨"A", "f", "()V"⟩
    let m : Method :=
      { instrs := [.new "A", .dup, .call .special ⟨"A", "<init>", "()V"⟩,
        call, call],
        ranges := [] }
    let ctx : Context := ⟨m, LocalTable.empty.lookup, {}⟩
    (∀ x ∈ m.slice 0 5, x.2.Regular) ∧
    (fun r => r.1.length) <$> ctx.simulate 0 4 [] = .ok 0 ∧
    (fun r => r.1.length) <$> ctx.simulate 0 5 [] = .error
    (.stackUnderflow 4) := by
  intro call m ctx
  have hcall {how : CallKind} {f : Member} (hf : f.descriptor = "()V") :
      (Instr.call how f).Regular := by
    refine ⟨⟨by simp [Instr.control], by simp⟩, by simp, ?_, ?_⟩
    · have hsignature :
          Signature.ofDescriptor f.descriptor = .ok ⟨[], "V"⟩ := by rw [hf]; rfl
      exact ⟨_, Instr.effect_call hsignature⟩
    · rintro _ _ signature ⟨⟩ - hsignature
      rw [hf] at hsignature
      cases hsignature
      rfl
  have hregular : ∀ x ∈ m.slice 0 5, x.2.Regular := by
    simp only [m, Method.slice, List.take, List.drop, List.zipIdx, List.map,
      List.mem_cons, List.not_mem_nil, or_false]
    rintro x (rfl | rfl | rfl | rfl | rfl)
    · exact ⟨⟨by decide, by decide⟩, by decide, ⟨_, rfl⟩, by rintro _ _ _ ⟨⟩⟩
    · exact ⟨⟨by decide, by decide⟩, by decide, ⟨_, rfl⟩, by rintro _ _ _ ⟨⟩⟩
    · exact hcall rfl
    · exact hcall rfl
    · exact hcall rfl
  have hfour : ∀ x ∈ m.slice 0 4, x.2.Regular := fun x hx =>
    hregular x (List.mem_of_mem_take (i := 4) (l := m.slice 0 5) hx)
  exact ⟨hregular, (map_length_simulate hfour []).1,
    (map_length_simulate hregular []).1⟩

end Decompiler
