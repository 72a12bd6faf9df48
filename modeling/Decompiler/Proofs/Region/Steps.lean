import Decompiler.Proofs.Region.Follows
import Decompiler.Proofs.Region.Found

/-!
# The steps of taking a graph apart

What a step that has come to an end has found, for methods without exception
ranges and switches.

* `Steady`: what holds of the work throughout.
* `Partition.SectionFound`, `Partition.FoldFound`: the places of a list.
-/

namespace Decompiler

/-- What holds of the work on a tidy graph throughout: the instructions stay
in their blocks, jumps lead to what `place` takes for the same, and there are
no switches and exception ranges. -/
structure Steady {β : Type} (place : Option Nat → β) (g₀ : Graph) (w : Told) :
    Prop where
  length : w.graph.blocks.length = g₀.blocks.length
  places : w.graph.SamePlaces g₀
  jumps : ∀ id t, w.graph.exit id = .jumps t → place (some id) = place (some t)
  noSwitch : ∀ id, (w.graph.exit id).isSwitch = false
  branches : ∀ id, (w.graph.exit id).isBranch = true →
  (g₀.exit id).isBranch = true
  pending : w.pending = []
  entries : ∀ id, (g₀.block id).entry = .plain

/-! ### Jumps that are followed -/

namespace Graph

variable {β : Type} {place : Option Nat → β} {g : Graph}

theorem place_landing
    (hjumps : ∀ id t, g.exit id = .jumps t → place (some id) = place (some t))
    (fuel id : Nat) : place (some (g.landing fuel id)) = place (some id) := by
  induction fuel generalizing id with
  | zero => rfl
  | succ n ih =>
    unfold Graph.landing
    split
    · rename_i target htarget
      rw [ih target, hjumps id target (Exit.eq_jumps_of_jump? htarget)]
    · rfl

/-- Edges that lead to the same block once jumps are followed lead to what is
the same. -/
theorem place_eq_of_meets
    (hjumps : ∀ id t, g.exit id = .jumps t → place (some id) = place (some t))
    {a b : Option Nat} (hmeets : g.meets a b = true) : place a = place b ∧
      a.isSome = b.isSome := by
  have heq := eq_of_beq hmeets
  cases a with
  | none =>
    cases b with
    | none => exact ⟨rfl, rfl⟩
    | some b => cases heq
  | some a =>
    cases b with
    | none => cases heq
    | some b =>
      have hland := Option.some.inj heq
      refine ⟨?_, rfl⟩
      rw [← place_landing hjumps g.blocks.length a, hland, place_landing hjumps]

end Graph

/-- Without exception ranges no groups are used up. -/
theorem Told.Drops.eq_of_pending {w w₁ : Told} (h : w.Drops w₁)
    (hpending : w.pending = []) : w₁ = w := by
  cases h with
  | none => rfl
  | one t =>
    rw [hpending]
    obtain ⟨⟨graph, pending⟩, faithful⟩ := w
    cases hpending
    rfl

namespace Partition

variable {ctx : Context} {inner : Structurer} {after : Option Nat} {s : Section}
    {w w' : Told}
  {β : Type} {place : Option Nat → β} {g₀ : Graph}

/-- Without exception ranges there is no try statement. -/
theorem told_tryPlan? {list : List Nat} {id : Nat}
    {r : Option (TryGroup × TryPlan)} (hpending : w.pending = [])
    (h : (tryPlan? list id).told w = .ok (r, w')) : r = none ∧ w' = w := by
  cases planFound_of_told h with
  | none drops => exact ⟨rfl, drops.eq_of_pending hpending⟩
  | some pending =>
    rw [hpending] at pending
    cases pending

/-- Without exception ranges and switches only a region is found. -/
theorem nested_of_steady {nested : RegionStructurer} {region : List Nat}
    {i id : Nat} (hw : Steady place g₀ w) {r : Option (Nat × Section)}
    (h : NestedFound inner nested region i id w r w') : (r = none ∧ w' = w) ∨
      ∃ isLoop stop s next, r = some (stop, s) ∧ i < stop ∧
        region[stop]? = some next ∧
        (isLoop = true → (w.graph.exit id).isJump = false) ∧
          (nested isLoop ((region.take stop).drop i) (some next)).told w =
          .ok (s, w') := by
  cases h with
  | none drops => exact .inl ⟨rfl, drops.eq_of_pending hw.pending⟩
  | tryStatement found =>
    cases found with
    | some pending =>
      rw [hw.pending] at pending
      cases pending
  | switch _ selects =>
    rw [hw.noSwitch id] at selects
    cases selects
  | region drops lt there head run =>
    rw [drops.eq_of_pending hw.pending] at run
    exact .inr ⟨_, _, _, _, rfl, lt, there, head, run⟩

/-- What stands at a position of a list. -/
inductive SectionFound (ctx : Context) (inner : Structurer) (list : List Nat)
    (after : Option Nat) (i id : Nat) (w : Told) : Section → Nat → Told → Prop
  /-- A region that has been folded. -/
  | folded {s : Section} (holds : (w.graph.block id).folded = some s) :
      SectionFound ctx inner list after i id w s (i + 1)
        { w with
          graph := w.graph.unfold id
          faithful := w.faithful && w.graph.goesOn id (list[i + 1]?.or after) }
  | region {isLoop : Bool} {stop : Nat} {s : Section} {w' : Told}
      (lt : i < stop) (head : isLoop = true → (w.graph.exit id).isJump = false)
      (run : (regionSection ctx inner (stop - i) isLoop ((list.take stop).drop i)
        (list[stop]?.or after)).told w = .ok (s, w')) :
      SectionFound ctx inner list after i id w s stop w'
  | inline (plain : (w.graph.block id).folded = none)
      (noBranch : (w.graph.exit id).isBranch = false) :
      SectionFound ctx inner list after i id w (.inline id) (i + 1)
        { w with
          faithful := w.faithful && w.graph.goesOn id (list[i + 1]?.or after) }

theorem told_sectionAt {list : List Nat} {i id next : Nat}
    (hw : Steady place g₀ w) (hid : list[i]? = some id)
    (h : (sectionAt ctx inner list after i id).told w = .ok ((s, next), w')) :
    SectionFound ctx inner list after i id w s next w' := by
  cases sectionTaken_of_told hid h with
  | folded holds => exact .folded holds
  | tryStatement _ found =>
    cases found with
    | some pending =>
      rw [hw.pending] at pending
      cases pending
  | switch _ _ selects =>
    rw [hw.noSwitch id] at selects
    cases selects
  | region _ drops lt head run =>
    rw [drops.eq_of_pending hw.pending] at run
    exact .region lt head run
  | inline plain drops _ noBranch =>
    rw [drops.eq_of_pending hw.pending]
    exact .inline plain noBranch

/-- Folding goes on behind a region that has been found, or at the next
position. -/
inductive FoldFound (inner : Structurer) (nested : RegionStructurer) (n i : Nat)
    (region : List Nat) (w : Told) (region' : List Nat) (w' : Told) : Prop
  | ends (none : region[i]? = none) (eq : region' = region) (same : w' = w)
  | passes
      (run : (foldNested inner nested n (i + 1) region).told w =
        .ok (region', w'))
  | folds {isLoop : Bool} {stop id next : Nat} {s : Section} {w₁ : Told}
      (here : region[i]? = some id) (lt : i < stop)
      (there : region[stop]? = some next)
      (head : isLoop = true → (w.graph.exit id).isJump = false)
      (inside : id < w.graph.blocks.length)
      (run : (nested isLoop ((region.take stop).drop i) (some next)).told w =
        .ok (s, w₁))
      (rest : (foldNested inner nested n (i + 1)
        (region.take (i + 1) ++ region.drop stop)).told
        { w₁ with graph := w₁.graph.fold id s (some next) } = .ok (region', w'))

theorem told_foldNested {nested : RegionStructurer} {n i : Nat}
    {region region' : List Nat} (hw : Steady place g₀ w)
    (h : (foldNested inner nested (n + 1) i region).told w =
      .ok (region', w')) :
    FoldFound inner nested n i region w region' w' := by
  cases foldTaken_of_told h with
  | ends none eq same => exact .ends none eq same
  | passes drops run =>
    rw [drops.eq_of_pending hw.pending] at run
    exact .passes run
  | folds here inside _ found rest =>
    obtain ⟨heq, _⟩ | ⟨isLoop, stop, s, next, heq, hlt, hnext, hhead, hrun⟩ :=
      nested_of_steady hw found
    · cases heq
    · cases heq
      rw [hnext] at rest
      exact .folds here hlt hnext hhead inside hrun rest

end Partition

end Decompiler
