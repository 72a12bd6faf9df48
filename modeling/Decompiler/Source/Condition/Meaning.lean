import Decompiler.Source.Condition.Basic

/-!
# What conditions mean

A condition holds or fails once every test and comparison in it does.  The
operations on junctions are read off their members: `Junction.value` says what
a junction of given members comes to, and `of`, `members` and `join` keep to it.

Tests and comparisons may be given their truth one by one (`value`), or by what
they test and compare (`holds`).  In the second way a test and its negation
always come out opposite.
-/

namespace Decompiler

/-- Which tests and comparisons hold. -/
structure Valuation where
  test : Expr → Bool
  compare : Expr → Comparison → Expr → Bool

/-- Whether opposite comparisons come out opposite. -/
def Valuation.Opposed (v : Valuation) : Prop :=
  ∀ lhs op rhs, v.compare lhs op.negate rhs = !v.compare lhs op rhs

namespace Condition

mutual

/-- What a condition comes to when `truth` tells which of its tests and
comparisons hold. -/
def value (truth : Condition → Bool) : Condition → Bool
  | test e negated => truth (test e negated)
  | compare lhs op rhs => truth (compare lhs op rhs)
  | all cs => allValue truth cs
  | any cs => anyValue truth cs
  | const b => b

/-- What the conjunction of a list of conditions comes to. -/
def allValue (truth : Condition → Bool) : List Condition → Bool
  | [] => true
  | c :: cs => c.value truth && allValue truth cs

/-- What the disjunction of a list of conditions comes to. -/
def anyValue (truth : Condition → Bool) : List Condition → Bool
  | [] => false
  | c :: cs => c.value truth || anyValue truth cs

end

theorem allValue_eq_all (truth : Condition → Bool) (cs : List Condition) :
    allValue truth cs = cs.all (·.value truth) := by
  induction cs with
  | nil => rfl
  | cons c cs ih => simp [allValue, ih]

theorem anyValue_eq_any (truth : Condition → Bool) (cs : List Condition) :
    anyValue truth cs = cs.any (·.value truth) := by
  induction cs with
  | nil => rfl
  | cons c cs ih => simp [anyValue, ih]

mutual

/-- Whether a condition holds. -/
def holds (v : Valuation) : Condition → Bool
  | test e negated => v.test e != negated
  | compare lhs op rhs => v.compare lhs op rhs
  | all cs => allHold v cs
  | any cs => anyHolds v cs
  | const b => b

/-- Whether all of a list of conditions hold. -/
def allHold (v : Valuation) : List Condition → Bool
  | [] => true
  | c :: cs => c.holds v && allHold v cs

/-- Whether some condition of a list holds. -/
def anyHolds (v : Valuation) : List Condition → Bool
  | [] => false
  | c :: cs => c.holds v || anyHolds v cs

end

theorem allHold_eq_all (v : Valuation) (cs : List Condition) :
    allHold v cs = cs.all (·.holds v) := by
  induction cs with
  | nil => rfl
  | cons c cs ih => simp [allHold, ih]

theorem anyHolds_eq_any (v : Valuation) (cs : List Condition) :
    anyHolds v cs = cs.any (·.holds v) := by
  induction cs with
  | nil => rfl
  | cons c cs ih => simp [anyHolds, ih]

mutual

/-- A condition holds if it comes to that by the tests and comparisons that
hold. -/
theorem holds_eq_value (v : Valuation) : (c : Condition) →
      c.holds v = c.value (·.holds v)
  | test .. | compare .. | const _ => rfl
  | all cs => (holdsAll_eq_value v cs).1
  | any cs => (holdsAll_eq_value v cs).2

theorem holdsAll_eq_value (v : Valuation) : (cs : List Condition) →
    allHold v cs = allValue (·.holds v) cs ∧
      anyHolds v cs = anyValue (·.holds v) cs
  | [] => ⟨rfl, rfl⟩
  | c :: cs => by
    have rest := holdsAll_eq_value v cs
    simp only [allHold, allValue, anyHolds, anyValue, holds_eq_value v c, rest,
      and_self]

end

end Condition

namespace Junction

variable (truth : Condition → Bool)

/-- What a junction of some conditions comes to. -/
def value : Junction → List Condition → Bool
  | all, cs => cs.all (·.value truth)
  | any, cs => cs.any (·.value truth)

theorem value_of (j : Junction) (cs : List Condition) :
    (j.of cs).value truth = j.value truth cs := by
  match j, cs with
  | all, [c] => simp [of, value]
  | any, [c] => simp [of, value]
  | all, [] => rfl
  | any, [] => rfl
  | all, c :: d :: cs =>
    simp [of, value, Condition.value, Condition.allValue_eq_all]
  | any, c :: d :: cs =>
    simp [of, value, Condition.value, Condition.anyValue_eq_any]

theorem value_members (j : Junction) (c : Condition) :
    j.value truth (j.members c) = c.value truth := by
  cases j <;> cases c <;>
    simp [members, value, Condition.value, Condition.allValue_eq_all,
      Condition.anyValue_eq_any]

theorem value_cons (j : Junction) (c : Condition) (cs : List Condition) :
    j.value truth (c :: cs) =
      match j with
      | all => c.value truth && j.value truth cs
      | any => c.value truth || j.value truth cs := by
  cases j <;> simp [value]

theorem value_append (j : Junction) (cs ds : List Condition) :
    j.value truth (cs ++ ds) =
      match j with
      | all => j.value truth cs && j.value truth ds
      | any => j.value truth cs || j.value truth ds := by
  cases j <;> simp [value]

theorem value_join (j : Junction) (a b : Condition) :
    (j.join a b).value truth =
      match j with
      | all => a.value truth && b.value truth
      | any => a.value truth || b.value truth := by
  rw [join, value_of, value_append, value_members, value_members]

end Junction

end Decompiler
