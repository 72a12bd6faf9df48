import Decompiler.Chain.Test
import Decompiler.Graph.Build
import Decompiler.Graph.Tidy
import Decompiler.Proofs.Likeness.Ends
import Mathlib

/-!
# The same instruction at another place

An instruction is simulated at an index.  The index names the values that the
instruction leaves on the stack, tells which variable a slot holds, and stands
in faults; the labels of the instruction are not looked at.  So an instruction
with other labels and at another index leads to the same, with the values on the
stack named by the other index.

* `Instr.bare`: an instruction without its labels, and what can be told from it.
* `Stack.rename`: the values on a stack named by other indices.
* `Context.step_rename`, `Context.run_rename`: simulating at other indices.
-/

namespace Decompiler

/-! ## Labels left out -/

namespace Instr

/-- An instruction with a label of no meaning in the place of each of its
labels. -/
def bare : Instr → Instr
  | label _ => label ⟨0⟩
  | ifZero op _ => ifZero op ⟨0⟩
  | ifInts op _ => ifInts op ⟨0⟩
  | ifReferences op _ => ifReferences op ⟨0⟩
  | ifNull _ => ifNull ⟨0⟩
  | ifNonNull _ => ifNonNull ⟨0⟩
  | goto _ => goto ⟨0⟩
  | tableSwitch low high _ targets =>
    tableSwitch low high ⟨0⟩ (targets.map fun _ => ⟨0⟩)
  | lookupSwitch _ pairs =>
    lookupSwitch ⟨0⟩ (pairs.map fun (key, _) => (key, ⟨0⟩))
  | i => i

/-- The keys of a switch. -/
def switchKeys? (i : Instr) : Option (List Int32) :=
  i.switchTable?.map fun t => t.1.map (·.1)

/-- Without its labels an instruction transfers control in the same way. -/
theorem control_bare (i : Instr) : i.bare.control = i.control := by
  cases i <;> rfl

theorem effect_bare (i : Instr) : i.bare.effect = i.effect := by cases i <;> rfl

/-- Without its labels a switch has the same keys. -/
theorem switchKeys?_bare (i : Instr) : i.bare.switchKeys? = i.switchKeys? := by
  cases i with
  | tableSwitch low high default targets =>
    have hkeys (ls : List Label) (n : Nat) :
        ((ls.map fun _ => (⟨0⟩ : Label)).zipIdx n).map
        (fun x => low + Int32.ofNat x.2) =
          (ls.zipIdx n).map fun x => low + Int32.ofNat x.2 := by
      rw [List.zipIdx_map, List.map_map]
      rfl
    simp only [bare, switchKeys?, switchTable?, Option.map_some, List.map_map,
      Function.comp_def, hkeys]
  | lookupSwitch default pairs => simp [bare, switchKeys?, switchTable?]
  | _ => rfl

/-- Without its label a jump has the same condition. -/
theorem jumpCondition_bare (i : Instr) (operands : List Expr) :
    i.bare.jumpCondition operands = i.jumpCondition operands := by
  cases i with
  | ifZero | ifNull | ifNonNull =>
    rcases operands with _ | ⟨a, _ | ⟨b, _⟩⟩ <;> rfl
  | ifInts | ifReferences =>
    rcases operands with _ | ⟨a, _ | ⟨b, _ | ⟨c, _⟩⟩⟩ <;> rfl
  | _ => rfl

section Bare

variable {i j : Instr}

/-- Instructions that differ in labels only transfer control in the same way. -/
theorem control_eq_of_bare (h : j.bare = i.bare) : j.control = i.control := by
  rw [← control_bare, h, control_bare]

/-- Instructions that differ in labels only are markers together. -/
theorem isMarker_eq_of_bare (h : j.bare = i.bare) :
    j.isMarker = i.isMarker := by
  rw [isMarker, isMarker, control_eq_of_bare h]

/-- Instructions that differ in labels only end blocks together. -/
theorem endsBlock_eq_of_bare (h : j.bare = i.bare) :
    j.endsBlock = i.endsBlock := by
  rw [endsBlock, endsBlock, control_eq_of_bare h]

/-- Instructions that differ in labels only have the same effect on the
stack. -/
theorem effect_eq_of_bare (h : j.bare = i.bare) : j.effect = i.effect := by
  rw [← effect_bare, h, effect_bare]

/-- Switches that differ in labels only have the same keys. -/
theorem switchKeys?_eq_of_bare (h : j.bare = i.bare) :
    j.switchKeys? = i.switchKeys? := by
  rw [← switchKeys?_bare, h, switchKeys?_bare]

/-- Jumps that differ in labels only have the same condition. -/
theorem jumpCondition_eq_of_bare (h : j.bare = i.bare) (operands : List Expr) :
    j.jumpCondition operands = i.jumpCondition operands := by
  rw [← jumpCondition_bare, h, jumpCondition_bare]

end Bare

end Instr

/-- Without its labels an instruction is simulated alike. -/
theorem Context.step_bare (ctx : Context) (index : Nat) (i : Instr)
    (s : Stack) : ctx.step index i.bare s = ctx.step index i s := by
  cases i <;> rfl

/-- Instructions that differ in labels only are simulated alike. -/
theorem Context.step_eq_of_bare {i j : Instr} (h : j.bare = i.bare)
    (ctx : Context) (index : Nat) (s : Stack) :
    ctx.step index j s = ctx.step index i s := by
  rw [← ctx.step_bare, h, ctx.step_bare]

/-! ## Values named by other indices -/

/-- The origin of a value when the instruction that made it stands elsewhere. -/
def Origin.rename (φ : Nat → Nat) : Origin → Origin
  | entry position => entry position
  | made index => made (φ index)

/-- Renaming keeps origins apart. -/
theorem Origin.rename_inj {φ : Nat → Nat} (hφ : φ.Injective) {o p : Origin} :
    o.rename φ = p.rename φ ↔ o = p := by
  cases o <;> cases p <;> simp [rename, hφ.eq_iff]

/-- A value made by an instruction that stands elsewhere. -/
def Value.rename (φ : Nat → Nat) (v : Value) : Value :=
  { v with origin := v.origin.rename φ }

@[simp] theorem Value.origin_rename (φ : Nat → Nat) (v : Value) :
    (v.rename φ).origin = v.origin.rename φ := rfl

@[simp] theorem Value.expr_rename (φ : Nat → Nat) (v : Value) :
    (v.rename φ).expr = v.expr := rfl

/-- A stack of values made by instructions that stand elsewhere. -/
def Stack.rename (φ : Nat → Nat) (s : Stack) : Stack := s.map (Value.rename φ)

/-- What simulating instructions that stand elsewhere leads to. -/
def Outcome.rename (φ : Nat → Nat) (o : Outcome) : Outcome :=
  (o.1.rename φ, o.2)

namespace Stack

variable {φ : Nat → Nat}

/-- Renaming origins changes no expression on the stack. -/
theorem exprs_rename (s : Stack) : (s.rename φ).exprs = s.exprs := by
  simp [exprs, rename, Value.rename, Function.comp_def, List.map_reverse]

/-- A renamed origin is held where the origin was. -/
theorem holds_rename (hφ : φ.Injective) (s : Stack) (o : Origin) :
    (s.rename φ).holds (o.rename φ) = s.holds o := by
  induction s with
  | nil => rfl
  | cons v s ih =>
    have hhead : ((v.rename φ).origin == o.rename φ) = (v.origin == o) := by
      rw [Bool.eq_iff_iff, beq_iff_eq, beq_iff_eq]
      exact Origin.rename_inj hφ
    simp only [rename, List.map_cons, holds, List.any_cons, hhead] at ih ⊢
    rw [ih]

/-- Replacing commutes with renaming. -/
theorem replace_rename (hφ : φ.Injective) (s : Stack) (o : Origin)
    (new : Value) :
    (s.rename φ).replace (o.rename φ) (new.rename φ) =
      (s.replace o new).rename φ := by
  simp only [replace, rename, List.map_map]
  refine List.map_congr_left fun v _ => ?_
  have horigin : (v.rename φ).origin = o.rename φ ↔ v.origin = o :=
    Origin.rename_inj hφ
  simp only [Function.comp_apply, horigin]
  split <;> rfl

variable {α β : Type} {R : α → β → Prop} {i j : Nat}

/-- Taking the top of the stack. -/
theorem pop_rename {s : Stack} {k : Value → Stack → Except Fault α}
    {k' : Value → Stack → Except Fault β}
    (h : ∀ v s, EndsAlike R (k v s) (k' (v.rename φ) (s.rename φ))) :
    EndsAlike R (s.pop i k) ((s.rename φ).pop j k') := by
  cases s with
  | nil => exact .error rfl
  | cons v s => exact h v s

/-- Taking several values at once. -/
theorem popMany_rename {n : Nat} {s : Stack}
    {k : List Expr → Stack → Except Fault α}
    {k' : List Expr → Stack → Except Fault β}
    (h : ∀ es s, EndsAlike R (k es s) (k' es (s.rename φ))) :
    EndsAlike R (s.popMany i n k) ((s.rename φ).popMany j n k') := by
  have hargs : ((s.rename φ).take n).reverse.map (·.expr) =
      (s.take n).reverse.map (·.expr) := by
    rw [rename, ← List.map_take, ← List.map_reverse, List.map_map]
    rfl
  have hrest : (s.rename φ).drop n = rename φ (s.drop n) := List.map_drop.symm
  have hlen : (s.rename φ).length = s.length := List.length_map _
  rw [popMany, popMany, hlen, hargs, hrest]
  split
  · exact .error rfl
  · exact h _ _

end Stack

/-! ## Simulating at other indices -/

namespace Context

/-- How the outcomes of two simulations are related. -/
abbrev Renamed (φ : Nat → Nat) (o o' : Outcome) : Prop := o' = o.rename φ

/-- Two contexts that ask for the same recoveries and give a variable to a slot
at an index of the one and the same to the slot at the index of the other. -/
structure Follows (ctx ctx' : Context) (φ : Nat → Nat) : Prop where
  injective : φ.Injective
  recover : ctx'.recover = ctx.recover
  locals : ∀ slot index, ctx'.locals slot (φ index) = ctx.locals slot index

variable {ctx ctx' : Context} {φ : Nat → Nat}

/-- Corresponding positions have the same variable in a slot. -/
theorem Follows.localAt (h : ctx.Follows ctx' φ) (kind : Kind)
    (slot index : Nat) :
    ctx'.localAt kind slot (φ index) = ctx.localAt kind slot index := by
  rw [Context.localAt, Context.localAt, h.locals]

/-- What a call leaves on the stack commutes with renaming. -/
theorem afterCall_rename (index : Nat) (isVoid : Bool) (call : Expr)
    (s : Stack) :
    afterCall (φ index) isVoid call (s.rename φ) =
      (afterCall index isVoid call s).rename φ := by
  unfold afterCall
  split <;> rfl

/-- Storing an element commutes with renaming. -/
theorem storeElement_rename (h : ctx.Follows ctx' φ) (index : Nat)
    (array position value : Value) (s : Stack) :
    ctx'.storeElement (φ index) (array.rename φ) (position.rename φ)
      (value.rename φ)
      (s.rename φ) = (ctx.storeElement index array position value s).rename
        φ := by
  have hplaced (literal : Expr) :=
    Stack.replace_rename h.injective s array.origin ⟨.made index, literal⟩
  simp only [storeElement, h.recover, Value.origin_rename, Value.expr_rename,
    Stack.holds_rename h.injective]
  split
  · split
    · exact Prod.ext (hplaced _) rfl
    · rfl
  · rfl

/-- Calling a method of an object commutes with renaming. -/
theorem callInstance_rename (h : ctx.Follows ctx' φ) (index : Nat)
    (how : CallKind) (receiver : Value) (method : Member)
    (signature : Signature) (args : List Expr) (s : Stack) :
    ctx'.callInstance (φ index) how (receiver.rename φ) method signature args
      (s.rename φ) =
      (ctx.callInstance index how receiver method signature args s).rename
        φ := by
  have hplaced (object : Expr) :=
    Stack.replace_rename h.injective s receiver.origin ⟨.made index, object⟩
  have hcall (isVoid : Bool) (call : Expr) :
      afterCall (φ index) isVoid call (s.rename φ) =
      (afterCall index isVoid call s).rename φ :=
    afterCall_rename index isVoid call s
  simp only [callInstance, h.recover, Value.origin_rename, Value.expr_rename,
    Stack.holds_rename h.injective, hcall]
  split
  · split
    · exact Prod.ext (hplaced _) rfl
    · rfl
  · rfl

/-- **One instruction at another index.** -/
theorem step_rename (h : ctx.Follows ctx' φ) (index : Nat) (i : Instr)
    (s : Stack) :
    EndsAlike (Renamed φ) (ctx.step index i s)
      (ctx'.step (φ index) i (s.rename φ)) := by
  cases i with
  | label | line | frame | nop | null | constant | getStatic | new =>
    exact .ok rfl
  | load kind slot =>
    refine .ok ?_
    simp only [Renamed, h.localAt]
    rfl
  | increment slot delta =>
    refine .ok ?_
    simp only [Renamed, h.localAt]
    rfl
  | store kind slot =>
    refine Stack.pop_rename fun v s => .ok ?_
    simp only [Renamed, h.localAt]
    rfl
  | pop | dup | neg | convert | throw | putStatic | getField | newArray
  | arrayLength | checkCast
  | instanceOf =>
    exact Stack.pop_rename fun v s => .ok rfl
  | dupX1 | swap | arith | compare | putField | arrayLoad =>
    exact Stack.pop_rename fun v s => Stack.pop_rename fun w s => .ok rfl
  | arrayStore =>
    refine Stack.pop_rename fun v s => Stack.pop_rename fun w s =>
      Stack.pop_rename fun a s => ?_
    exact .ok (storeElement_rename h index a w v s)
  | pop2 | dup2 =>
    refine Stack.pop_rename fun v s => .ite (.ok rfl) ?_
    exact Stack.pop_rename fun w s => .ok rfl
  | dupX2 =>
    refine Stack.pop_rename fun v s => Stack.pop_rename fun w s =>
      .ite (.ok rfl) ?_
    exact Stack.pop_rename fun x s => .ok rfl
  | dup2X1 =>
    refine Stack.pop_rename fun v s => Stack.pop_rename fun w s =>
      .ite (.ok rfl) ?_
    exact Stack.pop_rename fun x s => .ok rfl
  | dup2X2 =>
    refine Stack.pop_rename fun v s => Stack.pop_rename fun w s => ?_
    simp only [Value.expr_rename]
    cases v.expr.isWide with
    | true =>
      cases w.expr.isWide with
      | true => exact .ok rfl
      | false => exact Stack.pop_rename fun x s => .ok rfl
    | false =>
      refine Stack.pop_rename fun x s => .ite (.ok rfl) ?_
      exact Stack.pop_rename fun y s => .ok rfl
  | ret kind =>
    cases kind with
    | none => exact .ok rfl
    | some kind => exact Stack.pop_rename fun v s => .ok rfl
  | newMultiArray descriptor dimensions =>
    simp only [step]
    exact Stack.popMany_rename fun sizes s => .ok rfl
  | call how method =>
    cases how with
    | static =>
      refine (EndsAlike.refl _).bind fun signature _ hsignature =>
        hsignature ▸ ?_
      exact Stack.popMany_rename fun args s =>
        .ok (afterCall_rename index _ _ s)
    | virtual | special | interface =>
      refine (EndsAlike.refl _).bind fun signature _ hsignature =>
        hsignature ▸ ?_
      refine Stack.popMany_rename fun args s =>
        Stack.pop_rename fun receiver s => ?_
      exact .ok (callInstance_rename h index _ receiver method signature args s)
  | callDynamic name descriptor =>
    refine (EndsAlike.refl _).bind fun signature _ hsignature => hsignature ▸ ?_
    exact Stack.popMany_rename fun args s => .ok (afterCall_rename index _ _ s)
  | ifZero | ifInts | ifReferences | ifNull | ifNonNull | goto | tableSwitch
  | lookupSwitch
  | monitorEnter | monitorExit => exact .error rfl

/-- The same instruction, apart from its labels, at an index of the one method
and of the other. -/
def Twin (φ : Nat → Nat) (x y : Nat × Instr) : Prop :=
  y.1 = φ x.1 ∧ y.2.bare = x.2.bare

/-- **The same instructions at other indices.** -/
theorem run_rename (h : ctx.Follows ctx' φ) {xs ys : List (Nat × Instr)}
    (hxs : List.Forall₂ (Twin φ) xs ys) (s : Stack) :
    EndsAlike (Renamed φ) (ctx.run xs s) (ctx'.run ys (s.rename φ)) := by
  induction hxs generalizing s with
  | nil => exact .ok rfl
  | @cons x y xs ys head _ ih =>
    obtain ⟨index, i⟩ := x
    obtain ⟨index', i'⟩ := y
    obtain ⟨rfl, hbare⟩ : index' = φ index ∧ i'.bare = i.bare := head
    rw [run, run, step_eq_of_bare hbare]
    refine (step_rename h index i s).bind fun o o' ho => ?_
    subst ho
    refine (ih o.1).bind fun q q' hq => ?_
    subst hq
    exact .ok rfl

end Context

end Decompiler
