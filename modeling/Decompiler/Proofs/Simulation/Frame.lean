import Decompiler.Proofs.Graph.Idempotent
import Decompiler.Proofs.Simulation.Compiled

/-!
# Simulation touches only the top of the stack

Most instructions take values off the stack and put others in their place.  Two
look further down.  A constructor call completes all copies of its object and a
store all copies of its array, and what they do when no copy is left depends on
all of the stack.  But what they look for is an identity.  So values of other
identities below the stack of a run are not changed, and they are not found
either: the run does the same on top of them.

* `Stack.Apart`: stacks without a common identity.
* `Framed`: the same outcome on top of further values; one rule for each way in
  which an instruction uses the stack.
* `framed_step`, `framed_run`: one instruction, and a run.
* `simulate_append`: the instructions of a method.
-/

namespace Decompiler

/-- A value that is no copy of a value of a stack. -/
def Value.Apart (v : Value) (p : Stack) : Prop := ∀ u ∈ p, v.origin ≠ u.origin

/-- No value of one stack is a copy of a value of the other. -/
def Stack.Apart (s p : Stack) : Prop := ∀ v ∈ s, v.Apart p

section

variable {s t p : Stack} {v : Value}

theorem Stack.Apart.cons (hv : v.Apart p) (hs : s.Apart p) :
    Stack.Apart (v :: s) p :=
  List.forall_mem_cons.2 ⟨hv, hs⟩

/-- No copy of a value is found among values that are apart from it. -/
theorem Value.Apart.holds_eq_false (h : v.Apart p) :
    p.holds v.origin = false := by
  rw [Stack.holds, List.any_eq_false]
  intro u hu heq
  exact h u hu (eq_of_beq heq).symm

theorem Value.Apart.holds_append (h : v.Apart p) (t : Stack) :
    Stack.holds (t ++ p) v.origin = t.holds v.origin := by
  have hnone := h.holds_eq_false
  simp only [Stack.holds] at hnone
  rw [Stack.holds, Stack.holds, List.any_append, hnone, Bool.or_false]

/-- Values that are apart from a value stay when its copies are replaced. -/
theorem Value.Apart.replace_append (h : v.Apart p) (t : Stack) (new : Value) :
    Stack.replace (t ++ p) v.origin new = t.replace v.origin new ++ p := by
  rw [Stack.replace_append, Stack.replace_of_not_holds h.holds_eq_false]

theorem Stack.Apart.replace (h : s.Apart p) {new : Value} (hnew : new.Apart p)
    (o : Origin) : (s.replace o new).Apart p := by
  intro v hv
  obtain ⟨w, hw, rfl⟩ := List.mem_map.1 hv
  split
  · exact hnew
  · exact h w hw

end

/-- Whenever there is a first outcome, its stack is apart from some values, and
the second outcome is the first one on top of them. -/
def Framed (p : Stack) (x x' : Except Fault Outcome) : Prop :=
  ∀ t actions, x = .ok (t, actions) → t.Apart p ∧ x' = .ok (t ++ p, actions)

namespace Framed

variable {p s : Stack} {index : Nat}

theorem ok {t : Stack} {actions : List Action} (h : t.Apart p) :
    Framed p (.ok (t, actions)) (.ok (t ++ p, actions)) := by
  rintro _ _ ⟨⟩
  exact ⟨h, rfl⟩

theorem error {f : Fault} {x' : Except Fault Outcome} :
    Framed p (.error f) x' := by
  rintro _ _ ⟨⟩

theorem bind {α : Type} {x : Except Fault α} {f f' : α → Except Fault Outcome}
    (h : ∀ a, Framed p (f a) (f' a)) : Framed p (x >>= f) (x >>= f') := by
  cases x with
  | error e => exact error
  | ok a => exact h a

theorem ite {c : Prop} [Decidable c] {x y x' y' : Except Fault Outcome}
    (h : Framed p x x') (h' : Framed p y y') :
    Framed p (if c then x else y) (if c then x' else y') := by
  split
  · exact h
  · exact h'

/-- Taking the top of the stack leaves what is below. -/
theorem pop {k : Value → Stack → Except Fault Outcome} (hs : s.Apart p)
    (h : ∀ v rest, v.Apart p → rest.Apart p →
      Framed p (k v rest) (k v (rest ++ p))) :
    Framed p (s.pop index k) (Stack.pop index (s ++ p) k) := by
  cases s with
  | nil => exact error
  | cons v rest =>
    obtain ⟨hv, hrest⟩ := List.forall_mem_cons.1 hs
    exact h v rest hv hrest

/-- Taking many values leaves what is below. -/
theorem popMany {n : Nat} {k : List Expr → Stack → Except Fault Outcome}
    (hs : s.Apart p)
    (h : ∀ es rest, rest.Apart p → Framed p (k es rest) (k es (rest ++ p))) :
    Framed p (s.popMany index n k) (Stack.popMany index n (s ++ p) k) := by
  unfold Stack.popMany
  rcases Nat.lt_or_ge s.length n with hlt | hge
  · rw [if_pos hlt]
    exact error
  · rw [if_neg (Nat.not_lt.2 hge), if_neg (by rw [List.length_append]; omega),
      List.take_append_of_le_length hge, List.drop_append_of_le_length hge]
    exact h _ _ fun v hv => hs v (List.drop_subset _ _ hv)

end Framed

variable {ctx : Context} {index : Nat} {p s : Stack}

/-- A call leaves what is below. -/
theorem framed_afterCall (hs : s.Apart p)
    (hp : ∀ e, Value.Apart ⟨.made index, e⟩ p) (isVoid : Bool) (call : Expr) :
    Framed p (.ok (Context.afterCall index isVoid call s))
      (.ok (Context.afterCall index isVoid call (s ++ p))) := by
  cases isVoid with
  | true => exact .ok hs
  | false => exact .ok (.cons (hp call) hs)

/-- A store into an array that is apart from what is below. -/
theorem framed_storeElement {array : Value} (harray : array.Apart p)
    (hs : s.Apart p) (hp : ∀ e, Value.Apart ⟨.made index, e⟩ p)
    (position value : Value) :
    Framed p (.ok (ctx.storeElement index array position value s))
      (.ok (ctx.storeElement index array position value (s ++ p))) := by
  simp only [Context.storeElement, harray.holds_append, harray.replace_append]
  split
  · split
    · exact .ok (hs.replace (hp _) _)
    · exact .ok hs
  · exact .ok hs

/-- A call on a receiver that is apart from what is below. -/
theorem framed_callInstance {receiver : Value} (hreceiver : receiver.Apart p)
    (hs : s.Apart p) (hp : ∀ e, Value.Apart ⟨.made index, e⟩ p) (how : CallKind)
    (method : Member) (signature : Signature) (args : List Expr) :
    Framed p (.ok (ctx.callInstance index how receiver method signature args s))
      (.ok (ctx.callInstance index how receiver method signature args (s ++ p))) := by
  unfold Context.callInstance
  split
  · simp only [hreceiver.holds_append, hreceiver.replace_append]
    split
    · exact .ok (hs.replace (hp _) _)
    · exact .ok hs
  · exact framed_afterCall hs hp _ _

/-- **One instruction** does the same on top of values that are apart from the
stack and have not been made by it. -/
theorem framed_step (hs : s.Apart p) (hp : ∀ e, Value.Apart ⟨.made index, e⟩ p)
    (i : Instr) :
    Framed p (ctx.step index i s) (ctx.step index i (s ++ p)) := by
  have push {rest : Stack} (h : rest.Apart p) (e : Expr) :
      Framed p (.ok (⟨.made index, e⟩ :: rest, []))
        (.ok (⟨.made index, e⟩ :: (rest ++ p), [])) :=
    .ok (.cons (hp e) h)
  cases i with
  | label | line | frame | nop | increment => exact .ok hs
  | null | constant | load | getStatic | new => exact push hs _
  | store | throw | putStatic | pop => exact .pop hs fun _ _ _ h => .ok h
  | arrayLoad | arith | compare =>
    exact .pop hs fun _ _ _ h => .pop h fun _ _ _ h => push h _
  | arrayStore =>
    exact .pop hs fun _ _ _ h => .pop h fun _ _ _ h => .pop h fun _ _ ha h =>
      framed_storeElement ha h hp _ _
  | pop2 =>
    exact .pop hs fun _ _ _ h => .ite (.ok h) (.pop h fun _ _ _ h => .ok h)
  | dup => exact .pop hs fun _ _ hv h => .ok (.cons hv (.cons hv h))
  | dupX1 =>
    exact .pop hs fun _ _ hv h => .pop h fun _ _ hw h =>
      .ok (.cons hv (.cons hw (.cons hv h)))
  | dupX2 =>
    refine .pop hs fun _ _ hv h => .pop h fun _ _ hw h =>
      .ite ?_ (.pop h fun _ _ hx h => ?_)
    · exact .ok (.cons hv (.cons hw (.cons hv h)))
    · exact .ok (.cons hv (.cons hw (.cons hx (.cons hv h))))
  | dup2 =>
    refine .pop hs fun _ _ hv h => .ite ?_ (.pop h fun _ _ hw h => ?_)
    · exact .ok (.cons hv (.cons hv h))
    · exact .ok (.cons hv (.cons hw (.cons hv (.cons hw h))))
  | dup2X1 =>
    refine .pop hs fun _ _ hv h => .pop h fun _ _ hw h =>
      .ite ?_ (.pop h fun _ _ hx h => ?_)
    · exact .ok (.cons hv (.cons hw (.cons hv h)))
    · exact .ok (.cons hv (.cons hw (.cons hx (.cons hv (.cons hw h)))))
  | dup2X2 =>
    refine .pop hs fun _ _ hv h => .pop h fun _ _ hw h => ?_
    split
    · exact .ok (.cons hv (.cons hw (.cons hv h)))
    · exact .pop h fun _ _ hx h =>
        .ok (.cons hv (.cons hw (.cons hx (.cons hv h))))
    · refine .pop h fun _ _ hx h => .ite ?_ (.pop h fun _ _ hy h => ?_)
      · exact .ok (.cons hv (.cons hw (.cons hx (.cons hv (.cons hw h)))))
      · exact .ok (.cons hv (.cons hw (.cons hx (.cons hy (.cons hv (.cons hw h))))))
  | swap =>
    exact .pop hs fun _ _ hv h => .pop h fun _ _ hw h =>
      .ok (.cons hw (.cons hv h))
  | neg | convert | getField | newArray | arrayLength | checkCast | instanceOf =>
    exact .pop hs fun _ _ _ h => push h _
  | ret kind =>
    cases kind with
    | none => exact .ok hs
    | some _ => exact .pop hs fun _ _ _ h => .ok h
  | putField => exact .pop hs fun _ _ _ h => .pop h fun _ _ _ h => .ok h
  | call how method =>
    by_cases hhow : how = .static
    · subst hhow
      exact .bind fun _ => .popMany hs fun _ _ h => framed_afterCall h hp _ _
    · rw [Context.step_call hhow, Context.step_call hhow]
      exact .bind fun _ => .popMany hs fun _ _ h => .pop h fun _ _ hr h =>
        framed_callInstance hr h hp _ _ _ _
  | callDynamic =>
    exact .bind fun _ => .popMany hs fun _ _ h => framed_afterCall h hp _ _
  | newMultiArray descriptor dimensions =>
    rw [Context.step, Context.step]
    exact .popMany hs fun es _ h => push h (.newMultiArray descriptor es)
  | ifZero | ifInts | ifReferences | ifNull | ifNonNull | goto | tableSwitch
  | lookupSwitch
  | monitorEnter | monitorExit => exact .error

/-- **A run** does the same on top of values that are apart from the stack and
have not been made by its instructions. -/
theorem framed_run {xs : List (Nat × Instr)} (hs : s.Apart p)
    (hp : ∀ x ∈ xs, ∀ e, Value.Apart ⟨.made x.1, e⟩ p) :
    Framed p (ctx.run xs s) (ctx.run xs (s ++ p)) := by
  induction xs generalizing s with
  | nil => exact .ok hs
  | cons x xs ih =>
    intro t actions h
    obtain ⟨⟨s₁, first⟩, hstep, h⟩ := bind_eq_ok.1 h
    obtain ⟨⟨s₂, others⟩, hrun, h⟩ := bind_eq_ok.1 h
    cases h
    obtain ⟨hfirst, hstep'⟩ :=
      framed_step hs (hp x List.mem_cons_self) x.2 _ _ hstep
    obtain ⟨hrest, hrun'⟩ :=
      ih hfirst (fun y hy => hp y (List.mem_cons_of_mem x hy)) _ _ hrun
    exact ⟨hrest, bind_eq_ok.2 ⟨_, hstep', bind_eq_ok.2 ⟨_, hrun', rfl⟩⟩⟩

/-- **Only the top is touched.**  When the instructions of a range succeed on a
stack, they do the same on top of further values that were there before them and
share no identity with it: the actions are the same, and the further values are
below the same stack as they were. -/
theorem simulate_append {start stop : Nat} {t : Stack} {actions : List Action}
    (hbefore : p.Before start) (hapart : s.Apart p)
    (h : ctx.simulate start stop s = .ok (t, actions)) :
    ctx.simulate start stop (s ++ p) = .ok (t ++ p, actions) := by
  refine (framed_run hapart (fun x hx _ u hu heq => ?_) t actions h).2
  have hlt := hbefore u hu x.1 heq.symm
  have hle := Method.le_of_mem_slice hx
  omega

/-- Two objects of one class wait for their constructor.  The call completes
the copy that is left of the upper one, and the lower one stays as it is. -/
theorem simulate_append_uninitialized :
    let m : Method :=
      { instrs :=
        [.dup, .constant (.int 5), .call .special ⟨"A", "<init>", "(I)V"⟩],
        ranges := [] }
    let upper : Value := ⟨.entry 1, .uninitialized "A"⟩
    let lower : Value := ⟨.entry 0, .uninitialized "A"⟩
    let object : Value := ⟨.made 2, .construct "A" "(I)V" [.int 5]⟩
    let ctx : Context := ⟨m, LocalTable.empty.lookup, {}⟩
    Stack.Before [lower] 0 ∧ Stack.Apart [upper] [lower] ∧
    ctx.simulate 0 3 [upper] = .ok ([object], []) ∧
    ctx.simulate 0 3 [upper, lower] = .ok ([object, lower], []) := by
  intro m upper lower object ctx
  have hbefore : Stack.Before [lower] 0 := by
    simp [Stack.Before, lower]
  have hapart : Stack.Apart [upper] [lower] := by
    simp [Stack.Apart, Value.Apart, upper, lower]
  have hrun : ctx.simulate 0 3 [upper] = .ok ([object], []) := rfl
  exact ⟨hbefore, hapart, hrun, simulate_append hbefore hapart hrun⟩

end Decompiler
