import Decompiler.Proofs.Condition.Normal

/-!
# Negation and the normal form

Negation is pushed down to the tests, and every junction that it passes turns
into the other one.  So does everything that putting a junction in normal form
depends on: the constant that is dropped and the one that decides change places,
and the members that are opened are the junctions of the other kind.  This holds
of a junction with one member or none as well, which stands for that member or
for the constant that it ignores.

* `Junction.dual`: the other junction.
* `Condition.negate_gather`: one junction of negated members.
* `Condition.normalize_negate`: negation before and after the normal form.
* `Condition.negate_turns_value`: negation undoes itself, turns the value
  around, and is the same before and after the normal form.
-/

namespace Decompiler

namespace Junction

/-- The other junction. -/
def dual : Junction → Junction
  | all => any
  | any => all

/-- What is neutral for a junction is not for its dual. -/
theorem neutral_dual (j : Junction) : j.dual.neutral = !j.neutral := by
  cases j <;> rfl

end Junction

namespace Condition

/-- Conditions are negated one by one. -/
theorem negateAll_eq_map (cs : List Condition) :
    negateAll cs = cs.map negate := by
  induction cs with
  | nil => rfl
  | cons c cs ih => rw [negateAll, ih, List.map_cons]

mutual

/-- Negation undoes itself. -/
theorem negate_negate : (c : Condition) → c.negate.negate = c
  | test e negated => by rw [negate, negate, Bool.not_not]
  | compare lhs op rhs => by rw [negate, negate, Comparison.negate_negate]
  | all cs => congrArg all (negateAll_negateAll cs)
  | any cs => congrArg any (negateAll_negateAll cs)
  | const b => congrArg const (Bool.not_not b)

/-- Negating some conditions twice gives them back. -/
theorem negateAll_negateAll : (cs : List Condition) →
      negateAll (negateAll cs) = cs
  | [] => rfl
  | c :: cs => by
      rw [negateAll, negateAll, negate_negate c, negateAll_negateAll cs]

end

/-- The negation of a constant is the other one. -/
theorem isConst_negate (c : Condition) (b : Bool) :
    c.negate.isConst b = c.isConst !b := by
  cases c with
  | const v => cases v <;> cases b <;> rfl
  | test | compare | all | any => rfl

end Condition

/-! ## Junctions of negated members -/

namespace Junction

variable (j : Junction) (c : Condition) (cs : List Condition)

/-- A negated condition is opened as the other junction. -/
theorem members_negate :
    j.dual.members c.negate = (j.members c).map Condition.negate := by
  cases j <;> cases c <;>
    simp [dual, members, Condition.negate, Condition.negateAll_eq_map]

/-- The negation of a junction is the dual one of the negations. -/
theorem negate_of : (j.of cs).negate = j.dual.of (cs.map Condition.negate) := by
  match j, cs with
  | all, [c] | any, [c] => rfl
  | all, [] | any, [] => rfl
  | all, c :: d :: cs | any, c :: d :: cs =>
    simp [of, dual, Condition.negate, Condition.negateAll_eq_map]

end Junction

namespace Condition

/-- **One junction.**  Negated members are gathered by the other junction to the
negation of what the members are gathered to. -/
theorem negate_gather (j : Junction) (cs : List Condition) :
    (gather j cs).negate = gather j.dual (cs.map negate) := by
  have hdecided : (cs.map negate).any (·.isConst !j.dual.neutral) =
      cs.any (·.isConst !j.neutral) := by
    simp only [List.any_map, Function.comp_def, isConst_negate,
      Junction.neutral_dual, Bool.not_not]
  have hopened :
      ((cs.map negate).filter fun c => !c.isConst j.dual.neutral).flatMap
        j.dual.members =
      ((cs.filter fun c => !c.isConst j.neutral).flatMap j.members).map
      negate := by
    simp only [List.filter_map, Function.comp_def, isConst_negate,
      Junction.neutral_dual, Bool.not_not, List.flatMap_map, List.map_flatMap,
      Junction.members_negate]
  unfold gather
  rw [hdecided, hopened]
  by_cases h : cs.any (·.isConst !j.neutral) = true
  · rw [if_pos h, if_pos h, negate, Junction.neutral_dual]
  · rw [if_neg h, if_neg h]
    cases (cs.filter fun c => !c.isConst j.neutral).flatMap j.members with
    | nil => rw [List.map_nil, Junction.neutral_dual]; rfl
    | cons d ds => exact j.negate_of (d :: ds)

mutual

/-- The normal form of a negation is the negation of the normal form. -/
theorem normalize_negate : (c : Condition) →
      c.negate.normalize = c.normalize.negate
  | test .. | compare .. | const _ => rfl
  | all cs => by
    have hother := negate_gather .all (normalizes cs)
    rw [← normalizes_negateAll cs] at hother
    exact hother.symm
  | any cs => by
    have hother := negate_gather .any (normalizes cs)
    rw [← normalizes_negateAll cs] at hother
    exact hother.symm

/-- The normal forms of negations are the negated normal forms. -/
theorem normalizes_negateAll : (cs : List Condition) →
    normalizes (negateAll cs) = (normalizes cs).map negate
  | [] => rfl
  | c :: cs => by
    rw [negateAll, normalizes, normalize_negate c, normalizes_negateAll cs,
      normalizes, List.map_cons]

end

/-- **Negation.**  It undoes itself, the negation of a condition comes to the
opposite however truth is told that tells opposites apart, and the normal form
of the negation is the negation of the normal form. -/
theorem negate_turns_value (c : Condition) :
    c.negate.negate = c ∧
      (∀ truth, Opposed truth → c.negate.value truth = !c.value truth) ∧
      c.negate.normalize = c.normalize.negate :=
  ⟨negate_negate c, fun _ ht => value_negate ht c, normalize_negate c⟩

/-- A condition of four levels with a junction of one member and two of nothing.
The disjunction of nothing decides it, and so does its negation that of the
condition. -/
theorem negate_turns_value_nested :
    let c : Condition := all [any [], any [test .null false,
      all [compare (.int 1) .lt (.int 2), any [compare (.int 1) .ne (.int 1), const true]]], all []]
    let truth : Condition → Bool
      | test _ negated => negated
      | compare _ op _ => op == .eq || op == .lt || op == .le
      | _ => false
    Opposed truth ∧ c.negate.negate = c ∧
      c.negate.value truth = !c.value truth ∧ c.normalize = const false ∧
      c.negate.normalize = const true := by
  intro c truth
  have ht : Opposed truth := by
    refine ⟨fun _ _ => rfl, fun _ op _ => ?_⟩
    cases op <;> rfl
  obtain ⟨hback, hvalue, hnormal⟩ := negate_turns_value c
  exact ⟨ht, hback, hvalue truth ht, rfl, hnormal.trans rfl⟩

end Condition

end Decompiler
