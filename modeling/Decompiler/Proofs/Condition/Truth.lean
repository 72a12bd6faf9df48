import Decompiler.Source.Condition.Meaning
import Decompiler.Source.Condition.Normal

/-!
# The truth of conditions

How negation, sameness and normal form act on the truth of a condition.  A
valuation gives a truth value to every test and comparison; it is faithful if
opposite comparisons come out opposite and conditions that are the same come
out alike.  What is said of sameness and of the normal form does not depend on
opposites, so it is said of truth that is told test by test.

* `value_negate`, `holds_negate`: negation.
* `value_eq_of_same`, `Junction.value_of_withoutTail?`: sameness.
* `value_normalize`: the normal form.
-/

namespace Decompiler

/-- A valuation that tells comparisons from their opposites and cannot tell
apart what is the same. -/
structure Valuation.Faithful (v : Valuation) : Prop where
  opposed : v.Opposed
  test_congr : ∀ a b : Expr, a.same b = true → v.test a = v.test b
  compare_congr : ∀ (a b c d : Expr) (op : Comparison),
    a.same b = true → c.same d = true → v.compare a op c = v.compare b op d

namespace Condition

/-- A telling of truth in which a test comes out opposite when it is negated,
and a comparison when its operator is. -/
structure Opposed (truth : Condition → Bool) : Prop where
  test : ∀ (e : Expr) (negated : Bool), truth (.test e !negated) = !truth
    (.test e negated)
  compare : ∀ (lhs : Expr) (op : Comparison) (rhs : Expr),
    truth (.compare lhs op.negate rhs) = !truth (.compare lhs op rhs)

variable {truth : Condition → Bool}

mutual

/-- A negated condition comes to the opposite. -/
theorem value_negate (ht : Opposed truth) : (c : Condition) →
      c.negate.value truth = !c.value truth
  | test e negated => ht.test e negated
  | compare lhs op rhs => ht.compare lhs op rhs
  | all cs => (valueAll_negateAll ht cs).1
  | any cs => (valueAll_negateAll ht cs).2
  | const _ => rfl

/-- Some negation comes out true unless all conditions do, and all negations do
unless some condition does. -/
theorem valueAll_negateAll (ht : Opposed truth) : (cs : List Condition) →
    anyValue truth (negateAll cs) = (!allValue truth cs) ∧
      allValue truth (negateAll cs) = !anyValue truth cs
  | [] => ⟨rfl, rfl⟩
  | c :: cs => by
    obtain ⟨hany, hall⟩ := valueAll_negateAll ht cs
    simp only [negateAll, anyValue, allValue, value_negate ht c, hany, hall,
      Bool.not_and, Bool.not_or, and_self]

end

/-- What holds by a valuation with opposite comparisons is told of opposites. -/
theorem opposed_holds {v : Valuation} (hv : v.Opposed) :
    Opposed (·.holds v) where
  test e negated := by cases negated <;> simp [holds]
  compare := hv

/-- The negation of a condition holds exactly if the condition does not. -/
theorem holds_negate {v : Valuation} (hv : v.Opposed) (c : Condition) :
    c.negate.holds v = !c.holds v := by
  rw [holds_eq_value, holds_eq_value, value_negate (opposed_holds hv)]

/-- A telling of truth that cannot tell apart tests and comparisons that are the
same. -/
structure Congruent (truth : Condition → Bool) : Prop where
  test : ∀ (a b : Expr) (negated : Bool),
    a.same b = true → truth (.test a negated) = truth (.test b negated)
  compare : ∀ (a b c d : Expr) (op : Comparison),
    a.same b = true → c.same d = true →
    truth (.compare a op c) = truth (.compare b op d)

end Condition

/-- What holds by a faithful valuation is told congruently. -/
theorem Valuation.Faithful.congruent {v : Valuation} (hv : v.Faithful) :
    Condition.Congruent (·.holds v) where
  test a b negated hab := by simp [Condition.holds, hv.test_congr a b hab]
  compare a b c d op hab hcd := hv.compare_congr a b c d op hab hcd

namespace Condition

variable {v : Valuation} {truth : Condition → Bool}

mutual

/-- Conditions that are the same come to the same. -/
theorem value_eq_of_same (ht : Congruent truth) :
    (c d : Condition) → c.same d = true → c.value truth = d.value truth
  | test a m, test b n, h => by
    simp only [same, Bool.and_eq_true, beq_iff_eq] at h
    obtain ⟨hab, rfl⟩ := h
    exact ht.test a b m hab
  | compare a o b, compare c p d, h => by
    simp only [same, Bool.and_eq_true, beq_iff_eq] at h
    obtain ⟨⟨hac, rfl⟩, hbd⟩ := h
    exact ht.compare a c b d o hac hbd
  | all as, all bs, h => (valueAll_eq_of_same ht as bs h).1
  | any as, any bs, h => (valueAll_eq_of_same ht as bs h).2
  | const a, const b, h => by
    simp only [same, beq_iff_eq] at h
    simp [value, h]

/-- Lists of conditions that are the same member by member come to the same. -/
theorem valueAll_eq_of_same (ht : Congruent truth) :
    (as bs : List Condition) → sameAll as bs = true →
      allValue truth as = allValue truth bs ∧
        anyValue truth as = anyValue truth bs
  | [], [], _ => ⟨rfl, rfl⟩
  | a :: as, b :: bs, h => by
    simp only [sameAll, Bool.and_eq_true] at h
    have head := value_eq_of_same ht a b h.1
    have tail := valueAll_eq_of_same ht as bs h.2
    simp [allValue, anyValue, head, tail.1, tail.2]

end

end Condition

namespace Junction

variable {truth : Condition → Bool}

/-- Junctions of the same members have the same value. -/
theorem value_eq_of_sameAll (ht : Condition.Congruent truth) (j : Junction)
    {cs ds : List Condition} (h : Condition.sameAll cs ds = true) :
    j.value truth cs = j.value truth ds := by
  have both := Condition.valueAll_eq_of_same ht cs ds h
  cases j with
  | all => simpa [value, Condition.allValue_eq_all] using both.1
  | any => simpa [value, Condition.anyValue_eq_any] using both.2

/-- What is left of a condition when its last members are taken off still
makes up the condition together with them. -/
theorem value_of_withoutTail? (ht : Condition.Congruent truth) {j : Junction}
    {c tail x : Condition} (h : j.withoutTail? c tail = some x) :
    c.value truth = (j.join x tail).value truth := by
  unfold withoutTail? at h
  simp only [Option.ite_none_right_eq_some, Option.some.injEq,
    Bool.and_eq_true] at h
  obtain ⟨⟨_, hsame⟩, rfl⟩ := h
  let kept := (j.members c).length - (j.members tail).length
  have htail : j.value truth ((j.members c).drop kept) = tail.value truth :=
    (j.value_eq_of_sameAll ht hsame).trans (value_members truth j tail)
  have hsplit : c.value truth =
      j.value truth ((j.members c).take kept ++ (j.members c).drop kept) := by
    rw [List.take_append_drop, value_members]
  rw [hsplit, value_append, htail, value_join, value_of]

/-- A junction with a member that decides it has the value of that member. -/
theorem value_of_decided (j : Junction) {cs : List Condition}
    (h : cs.any (·.isConst !j.neutral) = true) :
    j.value truth cs = !j.neutral := by
  obtain ⟨c, hc, hconst⟩ := List.any_eq_true.1 h
  have hval : c.value truth = !j.neutral := by
    cases c <;> simp_all [Condition.isConst, Condition.value]
  cases j with
  | all =>
    simp only [value, neutral, Bool.not_true, List.all_eq_false]
    exact ⟨c, hc, by simpa [neutral] using hval⟩
  | any =>
    simp only [value, neutral, Bool.not_false, List.any_eq_true]
    exact ⟨c, hc, by simpa [neutral] using hval⟩

/-- Neutral members may be left out, and members may be opened. -/
theorem value_opened (j : Junction) (cs : List Condition) :
    j.value truth ((cs.filter fun c => !c.isConst j.neutral).flatMap j.members) =
      j.value truth cs := by
  induction cs with
  | nil => rfl
  | cons c cs ih =>
    by_cases hc : c.isConst j.neutral = true
    · have hval : c.value truth = j.neutral := by
        cases c <;> simp_all [Condition.isConst, Condition.value]
      rw [value_cons, ← ih]
      cases j <;> simp_all [neutral]
    · rw [value_cons, ← ih]
      cases j <;> simp [hc, value_append, value_members]

end Junction

namespace Condition

variable (truth : Condition → Bool)

/-- Gathering keeps what the junction comes to. -/
theorem value_gather (j : Junction) (cs : List Condition) :
    (gather j cs).value truth = j.value truth cs := by
  unfold gather
  split
  · rename_i h
    rw [Junction.value_of_decided j h]
    rfl
  · rw [← Junction.value_opened j cs]
    split
    · rename_i h
      rw [h]
      cases j <;> rfl
    · rw [Junction.value_of]

mutual

/-- The normal form comes to the same as the condition. -/
theorem value_normalize : (c : Condition) →
      c.normalize.value truth = c.value truth
  | test _ _ => rfl
  | compare _ _ _ => rfl
  | all cs => by
    rw [normalize, value_gather, value, allValue_eq_all]
    exact (valueAll_normalizes cs).1
  | any cs => by
    rw [normalize, value_gather, value, anyValue_eq_any]
    exact (valueAll_normalizes cs).2
  | const _ => rfl

/-- Normal forms of a list come to the same as the conditions. -/
theorem valueAll_normalizes : (cs : List Condition) →
    Junction.all.value truth (normalizes cs) = cs.all (·.value truth) ∧
      Junction.any.value truth (normalizes cs) = cs.any (·.value truth)
  | [] => ⟨rfl, rfl⟩
  | c :: cs => by
    obtain ⟨hall, hany⟩ := valueAll_normalizes cs
    simp only [Junction.value] at hall hany ⊢
    simp [normalizes, value_normalize c, hall, hany]

end

/-- The normal form holds whenever the condition does. -/
theorem holds_normalize (v : Valuation) (c : Condition) :
    c.normalize.holds v = c.holds v := by
  rw [holds_eq_value, holds_eq_value, value_normalize]

end Condition

end Decompiler
