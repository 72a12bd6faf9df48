import Decompiler.Chain.Guard
import Decompiler.Graph.Build
import Decompiler.Graph.Tidy

/-!
# Faults of the code

What is wrong with the code of a method is told by a few kinds of faults: an
instruction finds no value, no descriptor or no meaning, a label has no place, a
conditional jump is no test, or a test leads elsewhere.  Reading the code has no
other faults, whatever the method is: neither simulating instructions, nor
asking what a chain of tests guards, nor cutting the instructions into blocks
and tidying the blocks.

* `Fault.IsOfCode`: these kinds.
* `FailsAs`: what a computation fails with, if it does; one rule for each way in
  which computations are put together.
* `FailsAs.run`, `FailsAs.guard`: instructions and tests.
* `FailsAs.graph`, `FailsAs.tidy`: blocks.
-/

namespace Decompiler

/-- Whether a fault tells what is wrong with the code of a method. -/
def Fault.IsOfCode : Fault → Prop
  | .invalidDescriptor _ | .unresolvedLabel .. | .testShape .. | .edgeEscapes _
  | .stackUnderflow _ | .unsupported .. => True
  | _ => False

/-- The fault of a computation has a property, if there is one. -/
def FailsAs {α : Type} (P : Fault → Prop) : Except Fault α → Prop
  | .ok _ => True
  | .error f => P f

namespace FailsAs

variable {α β : Type} {P Q : Fault → Prop}

/-! ### Computations -/

theorem ok (a : α) : FailsAs P (.ok a) := trivial

/-- A fault of a kind is a failure of that kind. -/
theorem error {f : Fault} (h : P f) : FailsAs P (.error f : Except Fault α) := h

/-- What fails in one way only fails in that way. -/
theorem of_eq_error {x : Except Fault α} {f : Fault} (h : FailsAs P x)
    (hf : x = .error f) : P f := by
  rwa [hf] at h

/-- Ways to fail may be added. -/
theorem mono {x : Except Fault α} (h : FailsAs P x) (himp : ∀ f, P f → Q f) :
    FailsAs Q x := by
  cases x with
  | ok a => exact ok a
  | error f => exact himp f h

/-- Two steps one after the other fail as one of them does. -/
theorem bind {x : Except Fault α} {k : α → Except Fault β} (hx : FailsAs P x)
    (hk : ∀ a, FailsAs P (k a)) : FailsAs P (x >>= k) := by
  cases x with
  | ok a => exact hk a
  | error f => exact hx

/-- What is done to a result does not fail. -/
theorem map {x : Except Fault α} (hx : FailsAs P x) (k : α → β) :
    FailsAs P (k <$> x) := by
  cases x with
  | ok a => exact ok (k a)
  | error f => exact hx

/-- Steps for all members of a list fail as one of them does. -/
theorem mapM {k : α → Except Fault β} (h : ∀ a, FailsAs P (k a)) (xs : List α) :
    FailsAs P (xs.mapM k) := by
  induction xs with
  | nil => exact ok []
  | cons a xs ih =>
    rw [List.mapM_cons]
    exact (h a).bind fun b => ih.bind fun bs => ok _

/-! ### Instructions -/

section

variable {index : Nat} {s : Stack} {ctx : Context}

/-- A pop fails for lack of a value, or as what follows it does. -/
theorem pop {k : Value → Stack → Except Fault α}
    (hk : ∀ v s, FailsAs Fault.IsOfCode (k v s)) :
    FailsAs Fault.IsOfCode (s.pop index k) := by
  cases s with
  | nil => exact error trivial
  | cons v s => exact hk v s

/-- Pops fail for lack of values, or as what follows them does. -/
theorem popMany {n : Nat} {k : List Expr → Stack → Except Fault α}
    (hk : ∀ es s, FailsAs Fault.IsOfCode (k es s)) :
    FailsAs Fault.IsOfCode (s.popMany index n k) := by
  unfold Stack.popMany
  split
  · exact error trivial
  · exact hk _ _

/-- A descriptor is read, or at fault. -/
theorem ofDescriptor (descriptor : String) :
    FailsAs Fault.IsOfCode (Signature.ofDescriptor descriptor) := by
  unfold Signature.ofDescriptor
  split
  · exact ok _
  · exact error trivial

/-- An instruction fails for want of a value, of a descriptor or of a
meaning. -/
theorem step (i : Instr) (s : Stack) :
    FailsAs Fault.IsOfCode (ctx.step index i s) := by
  unfold Context.step
  cases i
  -- one rule for each way in which an instruction uses the stack
  all_goals
    dsimp only
    repeat' first
      | exact ok _
      | exact error trivial
      | refine pop fun _ _ => ?_
      | refine popMany fun _ _ => ?_
      | refine (ofDescriptor _).bind fun _ => ?_
      | split

/-- Code that is run fails for a fault of the code. -/
theorem run (xs : List (Nat × Instr)) (s : Stack) :
    FailsAs Fault.IsOfCode (ctx.run xs s) := by
  induction xs generalizing s with
  | nil => exact ok _
  | cons x xs ih => exact (step x.2 s).bind fun r => (ih r.1).bind fun _ => ok _

/-- The effect of an instruction on the stack fails for a fault of the code. -/
theorem effect (i : Instr) : FailsAs Fault.IsOfCode i.effect := by
  unfold Instr.effect
  split <;> first | exact ok _ | exact (ofDescriptor _).map _

end

/-! ### Tests -/

section

variable {ctx : Context} {g : Graph}

/-- The test of a block fails for a fault of the code. -/
theorem test (id : Nat) : FailsAs Fault.IsOfCode (g.test ctx id) := by
  unfold Graph.test
  refine (run _ []).bind fun r => ?_
  dsimp only
  split
  · exact error trivial
  · split
    · exact ok _
    · exact error trivial

/-- The destination of an edge fails for a fault of the code. -/
theorem dest (chain : List Nat) (body : Nat) (after : Option Nat) (source : Nat)
    (t : Option Nat) :
    FailsAs Fault.IsOfCode (g.dest chain body after source t) := by
  unfold Graph.dest
  split
  · exact error trivial
  · split
    · exact ok _
    · split
      · exact ok _
      · split
        · exact ok _
        · exact error trivial

/-- The guard of a chain fails for a fault of the code. -/
theorem guard (chain : List Nat) (body : Nat) (after : Option Nat) :
    FailsAs Fault.IsOfCode (g.guard ctx chain body after) := by
  unfold Graph.guard
  refine (mapM test chain).bind fun tests => ?_
  refine (mapM (fun id => ?_) chain).bind fun forks => ?_
  · exact (dest ..).bind fun taken => (dest ..).bind fun fallen => ok _
  · split
    · exact error trivial
    · exact ok _

end

/-! ### Blocks -/

section

variable {m : Method} {g : Graph}

/-- Looking up labels fails for a fault of the code. -/
theorem locate (find : Label → Option Nat) (index : Nat) (labels : List Label) :
    FailsAs Fault.IsOfCode (Method.locate find index labels) := by
  induction labels with
  | nil => exact ok _
  | cons l labels ih =>
    unfold Method.locate
    split
    · exact error trivial
    · exact ih.map _

/-- Looking up all destinations fails for a fault of the code. -/
theorem destinations (instrs : List (Nat × Instr)) :
    FailsAs Fault.IsOfCode (m.destinations instrs) := by
  induction instrs with
  | nil => exact ok _
  | cons x rest ih =>
    exact (locate ..).bind fun here => ih.bind fun others => ok _

/-- Cutting a method into blocks fails for a fault of the code. -/
theorem blocksOf (find : Label → Option Nat) (count id : Nat)
    (spans : List Span) :
    FailsAs Fault.IsOfCode (m.blocksOf find count id spans) := by
  induction spans generalizing id with
  | nil => exact ok _
  | cons span spans ih =>
    exact (locate ..).bind fun targets => (ih _).bind fun rest => ok _

/-- Building a graph fails for a fault of the code. -/
theorem graph (m : Method) : FailsAs Fault.IsOfCode m.graph :=
  ((destinations _).bind fun _ => ok _).bind fun _ =>
    (blocksOf ..).bind fun _ => ok _

/-- Looking for the operands of a jump fails for a fault of the code. -/
theorem operandsFrom? (need : Nat) (instrs : List (Nat × Instr)) :
    FailsAs Fault.IsOfCode (Decompiler.operandsFrom? need instrs) := by
  induction instrs generalizing need with
  | nil => exact ok _
  | cons x before ih =>
    unfold Decompiler.operandsFrom?
    split
    · exact ih need
    · refine (effect _).bind fun e => ?_
      split
      · exact ok _
      · dsimp only
        split
        · exact ok _
        · exact ih _

/-- Looking for where to split a block fails for a fault of the code. -/
theorem splitPoint? (b : Block) : FailsAs Fault.IsOfCode (b.splitPoint? m) := by
  unfold Block.splitPoint?
  split
  · exact ok _
  · exact (effect _).bind fun e => operandsFrom? ..
  · exact (effect _).bind fun e => operandsFrom? ..
  · exact ok _

/-- Splitting blocks fails for a fault of the code. -/
theorem isolateAll (ids : List Nat) :
    FailsAs Fault.IsOfCode (g.isolateAll m ids) := by
  induction ids generalizing g with
  | nil => exact ok g
  | cons id ids ih =>
    refine bind ?_ fun g => ih
    unfold Graph.isolate
    refine (splitPoint? _).bind fun point => ?_
    split <;> exact ok _

/-- Tidying a graph fails for a fault of the code. -/
theorem tidy (g : Graph) (m : Method) : FailsAs Fault.IsOfCode (g.tidy m) :=
  (isolateAll _).bind fun _ => ok _

end

end FailsAs

end Decompiler
