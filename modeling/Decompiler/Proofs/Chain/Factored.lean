import Decompiler.Chain.Paths
import Mathlib.Data.List.Basic

/-!
# Telling paths apart

Paths that do not start with the same test cannot be told apart on their first
test.  Such paths would be written down one by one.  `Factors` tells how a set
of paths is turned into one condition while this does not happen: it has a rule
for every way to go on, and none for paths that start with different tests.

* `Condition.Factors.ofPaths_eq`: what the rules come to is what paths are
  turned into.
* `Condition.Factors.fork`: the paths that go on from one test come apart into
  those of its two sides.
-/

namespace Decompiler.Condition

/-- What is left of the paths on which the first test comes out as given. -/
def tails (taken : Bool) (ps : List Path) : List Path :=
  (ps.filter fun p => (p.head?.map (·.taken)) == some taken).map List.tail

/-- How paths are told apart on the tests that they share, with what they are
turned into.  None of them has more tests than the given number. -/
inductive Factors (tests : List Condition) : Nat → List Path → Condition → Prop
  /-- There is no path. -/
  | never {n : Nat} : Factors tests n [] (.const false)
  /-- A path has come to its end. -/
  | always {n : Nat} {ps : List Path} (ends : [] ∈ ps) :
      Factors tests n ps (.const true)
  /-- All paths go on with the same test. -/
  | shared {n position : Nat} {ps : List Path} {t f : Condition}
      (some_path : ps ≠ [])
      (first : ∀ p ∈ ps, p.head?.map (·.position) = some position)
      (taken : Factors tests n (tails true ps) t)
      (fallen : Factors tests n (tails false ps) f) :
      Factors tests (n + 1) ps (select (tests.getD position (.const false)) t f)

namespace Factors

variable {tests : List Condition} {n position : Nat} {ps qs : List Path}
    {c t f : Condition}

/-- The rules come to what paths are turned into. -/
theorem ofPaths_eq (h : Factors tests n ps c) : ofPaths tests n ps = c := by
  induction h with
  | never => rw [ofPaths]
  | @always n ps ends =>
    have hends : ps.any (·.isEmpty) = true := List.any_eq_true.2 ⟨[], ends, rfl⟩
    cases ps with
    | nil => cases ends
    | cons p ps =>
      cases n <;> rw [ofPaths, if_pos hends] <;> exact List.cons_ne_nil p ps
  | @shared n position ps t f some_path first _ _ ih ih' =>
    have hends : ps.any (·.isEmpty) = false := by
      rw [List.any_eq_false]
      intro p hp hempty
      have hfirst := first p hp
      rw [List.isEmpty_iff.1 hempty] at hfirst
      cases hfirst
    have hshared :
        (ps.any fun p => (p.head?.map (·.position)) != some position) =
        false := by
      rw [List.any_eq_false]
      intro p hp
      rw [first p hp]
      simp
    obtain ⟨p, ps, rfl⟩ := List.exists_cons_of_ne_nil some_path
    cases p with
    | nil => cases first [] List.mem_cons_self
    | cons turn rest =>
      obtain rfl : turn.position = position := by
        simpa using first _ List.mem_cons_self
      simp only [ofPaths, hends, Bool.false_eq_true, if_false, List.head?_cons,
        Option.bind_eq_bind, Option.bind_some, hshared]
      rw [← ih, ← ih']
      rfl

/-- Without paths nothing holds. -/
theorem eq_of_nil (h : Factors tests n [] c) : c = .const false := by
  cases h with
  | never => rfl
  | always ends => cases ends
  | shared some_path => exact absurd rfl some_path

/-- The paths that go on from one test come apart into those of its two
sides. -/
theorem fork (ht : Factors tests n ps t) (hf : Factors tests n qs f)
    (position : Nat) :
    Factors tests (n + 1)
      (ps.map (⟨position, true⟩ :: ·) ++ qs.map (⟨position, false⟩ :: ·))
      (select (tests.getD position (.const false)) t f) := by
  have hside (taken : Bool) :
      tails taken (ps.map (⟨position, true⟩ :: ·) ++ qs.map (⟨position, false⟩ :: ·)) =
        if taken then ps else qs := by
    cases taken <;> simp [tails, List.filter_map, Function.comp_def]
  by_cases hnone : ps = [] ∧ qs = []
  · obtain ⟨rfl, rfl⟩ := hnone
    rw [ht.eq_of_nil, hf.eq_of_nil]
    exact .never
  apply Factors.shared
  · simpa using hnone
  · intro p hp
    rcases List.mem_append.1 hp with hp | hp <;>
      obtain ⟨rest, _, rfl⟩ := List.mem_map.1 hp <;> rfl
  · rwa [hside]
  · rwa [hside]

end Factors

end Decompiler.Condition
