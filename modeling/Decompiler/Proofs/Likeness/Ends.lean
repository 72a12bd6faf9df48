import Decompiler.Fault

/-!
# Ends of two computations

Faults name instructions by their index and labels by their number.  Methods
that are written differently and mean the same fail for the same cause, but not
with the same numbers.  So two computations are compared by how they end: with
results that are related, or with faults of one kind.

* `Fault.kind`: the cause of a fault without the facts that identify it.
* `EndsAlike`: how two computations end; `EndsAlike.bind` for computations in
  sequence, `EndsAlike.mapM` for one computation for each member of a list.
-/

namespace Decompiler

namespace Fault

/-- The causes of failure, without the facts that identify them. -/
inductive Kind
  | invalidDescriptor
  | duplicateLabel
  | unknownLocalLabel
  | unresolvedLabel
  | testShape
  | edgeEscapes
  | irreducible
  | unresolvedConditional
  | stackUnderflow
  | missingSelector
  | unsupported
  | missingBlock
  | nestingTooDeep
deriving Repr, DecidableEq

/-- The cause of a fault. -/
def kind : Fault → Kind
  | invalidDescriptor _ => .invalidDescriptor
  | duplicateLabel _ => .duplicateLabel
  | unknownLocalLabel .. => .unknownLocalLabel
  | unresolvedLabel .. => .unresolvedLabel
  | testShape .. => .testShape
  | edgeEscapes _ => .edgeEscapes
  | irreducible _ => .irreducible
  | unresolvedConditional _ => .unresolvedConditional
  | stackUnderflow _ => .stackUnderflow
  | missingSelector _ => .missingSelector
  | unsupported .. => .unsupported
  | missingBlock _ => .missingBlock
  | nestingTooDeep => .nestingTooDeep

end Fault

variable {α β γ δ : Type} {R : α → β → Prop} {S : γ → δ → Prop}

/-- Two computations end alike: both with results that are related, or both with
a fault of the same kind. -/
inductive EndsAlike (R : α → β → Prop) : Except Fault α → Except Fault β → Prop
  | ok {a : α} {b : β} (related : R a b) : EndsAlike R (.ok a) (.ok b)
  | error {e e' : Fault} (kind : e.kind = e'.kind) :
      EndsAlike R (.error e) (.error e')

namespace EndsAlike

variable {x : Except Fault α} {y : Except Fault β}

/-- Results that are alike are so more loosely. -/
theorem mono {Q : α → β → Prop} (h : EndsAlike R x y)
    (hRQ : ∀ a b, R a b → Q a b) : EndsAlike Q x y := by
  cases h with
  | ok related => exact .ok (hRQ _ _ related)
  | error kind => exact .error kind

/-- Computations in sequence, when the second needs to know that the first has
given its value. -/
theorem bind_of_eq {f : α → Except Fault γ} {k : β → Except Fault δ}
    (h : EndsAlike R x y) (hfk : ∀ a b, x = .ok a → y = .ok b → R a b →
      EndsAlike S (f a) (k b)) :
    EndsAlike S (x >>= f) (y >>= k) := by
  cases h with
  | ok related => exact hfk _ _ rfl rfl related
  | error kind => exact .error kind

/-- Computations in sequence. -/
theorem bind {f : α → Except Fault γ} {k : β → Except Fault δ}
    (h : EndsAlike R x y) (hfk : ∀ a b, R a b → EndsAlike S (f a) (k b)) :
    EndsAlike S (x >>= f) (y >>= k) :=
  h.bind_of_eq fun a b _ _ => hfk a b

/-- Both ways of a choice end alike. -/
theorem ite {c : Prop} [Decidable c] {x' : Except Fault α} {y' : Except Fault β}
    (h : EndsAlike R x y) (h' : EndsAlike R x' y') :
    EndsAlike R (if c then x else x') (if c then y else y') := by
  split
  · exact h
  · exact h'

/-- What is computed ends like itself. -/
theorem refl (x : Except Fault α) : EndsAlike Eq x x := by
  cases x with
  | ok a => exact .ok rfl
  | error e => exact .error rfl

/-- Ending alike with equal results is symmetric. -/
theorem symm {x y : Except Fault α} (h : EndsAlike Eq x y) :
    EndsAlike Eq y x := by
  cases h with
  | ok related => exact .ok related.symm
  | error kind => exact .error kind.symm

/-- A computation for each member of a list. -/
theorem mapM {f k : α → Except Fault γ} {xs : List α}
    (h : ∀ a ∈ xs, EndsAlike Eq (f a) (k a)) :
    EndsAlike Eq (xs.mapM f) (xs.mapM k) := by
  induction xs with
  | nil => exact .ok rfl
  | cons a xs ih =>
    rw [List.mapM_cons, List.mapM_cons]
    refine (h a List.mem_cons_self).bind fun b _ hb => ?_
    refine (ih fun a ha => h a (List.mem_cons_of_mem _ ha)).bind fun bs _ hbs =>
      ?_
    exact .ok (by rw [hb, hbs])

/-- Equal results or faults of one kind: the same, once faults are told by their
kind only. -/
theorem mapError_eq {x y : Except Fault α} (h : EndsAlike Eq x y) :
    x.mapError Fault.kind = y.mapError Fault.kind := by
  cases h with
  | ok related => rw [related]
  | error kind => exact congrArg Except.error kind

end EndsAlike

end Decompiler
