import Decompiler.Chain.Paths
import Decompiler.Proofs.Result
import Mathlib.Data.List.Perm.Subperm
import Mathlib.Data.List.Range
import Mathlib.Logic.Relation

/-!
# When the paths of a chain are found

Paths are collected by a search that remembers the tests on its way.  It fails
when it comes back to one of them, and only then: a test that several others
lead to is looked at once for each of them, and the fuel, one unit for every
test of the chain, is used up only on a way that has come back.

* `paths_of_fork`: one step of the search.
* `acc_of_paths`: where paths are found, every way on comes to an end.
* `circles_of_paths`: where none are found, control can go round in a circle.
* `exists_paths_iff`: paths are found exactly if no circle can be reached.
-/

namespace Decompiler.Chain

open Relation (ReflTransGen TransGen)

variable {forks : List Fork} {fuel position next : Nat} {seen : List Nat}
    {ps : List Path}

/-! ### One step -/

/-- The paths on from where an edge leads. -/
def follow (forks : List Fork) (fuel : Nat) (seen : List Nat) : Dest →
      Except Nat (List Path)
  | .body => .ok [[]]
  | .exit => .ok []
  | .test next => paths forks fuel seen next

/-- A test that has been met already ends the search for paths. -/
theorem paths_of_mem (h : position ∈ seen) :
    paths forks (fuel + 1) seen position = .error position := by
  rw [paths, if_pos (List.contains_iff_mem.2 h)]

/-- Paths are found from tests that have not been met. -/
theorem not_mem_of_paths (h : paths forks fuel seen position = .ok ps) :
    position ∉ seen := by
  cases fuel with
  | zero => cases h
  | succ n =>
    intro hmem
    rw [paths_of_mem hmem] at h
    cases h

/-- From a test that has not been met, the paths are those of its two sides. -/
theorem paths_of_fork {fork : Fork} (hfresh : position ∉ seen)
    (hfork : forks[position]? = some fork) :
    paths forks (fuel + 1) seen position = do
      let taken ← follow forks fuel (position :: seen) fork.taken
      let fallen ← follow forks fuel (position :: seen) fork.fallen
      return taken.map (⟨position, true⟩ :: ·) ++
        fallen.map (⟨position, false⟩ :: ·) := by
  rw [paths, if_neg (mt List.contains_iff_mem.1 hfresh), hfork]
  rfl

/-- Where paths are found from a test, they are put together from those of its
two sides. -/
theorem exists_follow_of_paths {fork : Fork}
    (h : paths forks (fuel + 1) seen position = .ok ps)
    (hfork : forks[position]? = some fork) :
    ∃ taken fallen, follow forks fuel (position :: seen) fork.taken =
      .ok taken ∧
      follow forks fuel (position :: seen) fork.fallen = .ok fallen ∧
      ps = taken.map (⟨position, true⟩ :: ·) ++
        fallen.map (⟨position, false⟩ :: ·) := by
  rw [paths_of_fork (not_mem_of_paths h) hfork] at h
  obtain ⟨taken, htaken, h⟩ := bind_eq_ok.1 h
  obtain ⟨fallen, hfallen, h⟩ := bind_eq_ok.1 h
  cases h
  exact ⟨taken, fallen, htaken, hfallen, rfl⟩

/-! ### Circles -/

/-- Whether one of the two edges of a test leads to another test. -/
def GoesTo (forks : List Fork) (position next : Nat) : Prop :=
  ∃ fork, forks[position]? = some fork ∧
    (fork.taken = .test next ∨ fork.fallen = .test next)

/-- Whether control that is at a test can come to some test over and over. -/
def Circles (forks : List Fork) (position : Nat) : Prop :=
  ∃ p, ReflTransGen (GoesTo forks) position p ∧ TransGen (GoesTo forks) p p

/-- Where paths are found from a test, they are found from those it leads to. -/
theorem exists_paths_of_goesTo
    (h : paths forks (fuel + 1) seen position = .ok ps)
    (hnext : GoesTo forks position next) :
    ∃ ps', paths forks fuel (position :: seen) next = .ok ps' := by
  obtain ⟨fork, hfork, hedge⟩ := hnext
  obtain ⟨taken, fallen, htaken, hfallen, _⟩ := exists_follow_of_paths h hfork
  rcases hedge with hedge | hedge
  · rw [hedge] at htaken
    exact ⟨taken, htaken⟩
  · rw [hedge] at hfallen
    exact ⟨fallen, hfallen⟩

/-- Where paths are found, no way on from the test goes on for ever. -/
theorem acc_of_paths (h : paths forks fuel seen position = .ok ps) :
    Acc (fun next position => GoesTo forks position next) position := by
  induction fuel generalizing seen position ps with
  | zero => cases h
  | succ n ih =>
    refine .intro position fun next hnext => ?_
    obtain ⟨_, hps'⟩ := exists_paths_of_goesTo h hnext
    exact ih hps'

/-- Control does not go round in a circle if every way on comes to an end. -/
theorem not_circles_of_acc
    (hend : Acc (fun next position => GoesTo forks position next) position) :
    ¬ Circles forks position := by
  rintro ⟨p, hreach, hcircle⟩
  have hend' : Acc (fun next position => GoesTo forks position next) p := by
    clear hcircle
    induction hreach with
    | refl => exact hend
    | tail _ hstep ih => exact ih.inv hstep
  have hends := hend'.transGen
  have hround := Relation.transGen_swap.2 hcircle
  clear hreach hcircle hend hend'
  induction hends with
  | intro p _ ih => exact ih p hround hround

/-- Where no paths are found, one of the two sides of the test is to blame. -/
theorem exists_goesTo_of_paths_eq_error {position' : Nat}
    (h : paths forks (fuel + 1) seen position = .error position')
    (hfresh : position ∉ seen) :
    ∃ next, GoesTo forks position next ∧
      paths forks fuel (position :: seen) next = .error position' := by
  cases hfork : forks[position]? with
  | none =>
    rw [paths, if_neg (mt List.contains_iff_mem.1 hfresh), hfork] at h
    cases h
  | some fork =>
    -- only an edge to another test can fail
    have edge {d : Dest} (hd : d = fork.taken ∨ d = fork.fallen)
        (herror : follow forks fuel (position :: seen) d = .error position') :
        ∃ next, GoesTo forks position next ∧
          paths forks fuel (position :: seen) next = .error position' := by
      cases d with
      | body => cases herror
      | exit => cases herror
      | test next => exact ⟨next, ⟨fork, hfork, hd.imp Eq.symm Eq.symm⟩, herror⟩
    rw [paths_of_fork hfresh hfork] at h
    rcases bind_eq_error.1 h with herror | ⟨taken, _, h⟩
    · exact edge (.inl rfl) herror
    rcases bind_eq_error.1 h with herror | ⟨fallen, _, h⟩
    · exact edge (.inr rfl) herror
    · cases h

/-- **Where no paths are found.**  The tests on the way are different ones from
which control has come, and there is fuel for all the others; so the search can
only fail at a test that it has come back to. -/
theorem circles_of_paths {length position' : Nat}
    (h : paths forks fuel seen position = .error position')
    (hinside : ∀ p q, GoesTo forks p q → q < length)
    (hposition : position < length) (hnodup : seen.Nodup)
    (hseen : ∀ p ∈ seen, p < length ∧ TransGen (GoesTo forks) p position)
    (hfuel : length ≤ seen.length + fuel) : Circles forks position := by
  induction fuel generalizing seen position with
  | zero =>
    by_cases hmem : position ∈ seen
    · exact ⟨position, .refl, (hseen position hmem).2⟩
    -- there is no room for one more test
    have hsub : position :: seen ⊆ List.range length := by
      intro p hp
      rcases List.mem_cons.1 hp with rfl | hp
      · exact List.mem_range.2 hposition
      · exact List.mem_range.2 (hseen p hp).1
    have hroom := ((List.nodup_cons.2 ⟨hmem, hnodup⟩).subperm hsub).length_le
    rw [List.length_cons, List.length_range] at hroom
    omega
  | succ n ih =>
    by_cases hmem : position ∈ seen
    · exact ⟨position, .refl, (hseen position hmem).2⟩
    obtain ⟨next, hnext, herror⟩ := exists_goesTo_of_paths_eq_error h hmem
    obtain ⟨p, hreach, hcircle⟩ := ih herror (hinside _ _ hnext)
      (List.nodup_cons.2 ⟨hmem, hnodup⟩) (fun q hq => by
        rcases List.mem_cons.1 hq with rfl | hq
        · exact ⟨hposition, .single hnext⟩
        · exact ⟨(hseen q hq).1, (hseen q hq).2.tail hnext⟩) (by
        rw [List.length_cons]
        omega)
    exact ⟨p, .head hnext hreach, hcircle⟩

/-- **When paths are found.**  The search from the first test of a chain
succeeds exactly if control cannot go round in a circle from there. -/
theorem exists_paths_iff {length : Nat}
    (hinside : ∀ p q, GoesTo forks p q → q < length)
    (hposition : position < length) :
    (∃ ps, paths forks length [] position = .ok ps) ↔
      ¬ Circles forks position := by
  constructor
  · rintro ⟨_, h⟩
    exact not_circles_of_acc (acc_of_paths h)
  intro hcircles
  cases h : paths forks length [] position with
  | ok ps => exact ⟨ps, rfl⟩
  | error position' =>
    exact absurd (circles_of_paths h hinside hposition .nil (by simp) (by simp))
      hcircles

end Decompiler.Chain
