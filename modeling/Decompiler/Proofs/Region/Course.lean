import Decompiler.Proofs.Region.Kept

/-!
# The course of steady work

What is known of a section rests on what is known of the regions and lists
inside it.  Here a finished run is laid out as the runs that it consists of,
each with the work that it starts from and what it leaves alone, so that a proof
about sections is an induction over what has been found, with no fuel and no
failure in it.

* `Partition.Folding`: the regions inside a region are folded one after another.
* `Partition.RegionFound`: the kinds of regions.
* `Partition.SectionsFound`: the sections of a list one after another.
-/

namespace Decompiler.Partition

variable {β : Type} {place : Option Nat → β} {g₀ : Graph} {ctx : Context}
    {inner : Structurer}
  {nested : RegionStructurer} {after : Option Nat} {s : Section} {w w' : Told}

/-- A slice starts with a jump only if the block at its position is one. -/
theorem isJump_head?_slice {list : List Nat} {i stop id : Nat}
    (hid : list[i]? = some id) (hlt : i < stop)
    (hhead : (w.graph.exit id).isJump = false) :
    ∀ first ∈ ((list.take stop).drop i).head?,
      (w.graph.exit first).isJump = false := by
  intro first hmem
  rw [head?_slice hid hlt] at hmem
  cases hmem
  exact hhead

/-! ### Regions -/

/-- The regions inside a region are folded one after another. -/
inductive Folding (place : Option Nat → β) (g₀ : Graph)
    (nested : RegionStructurer) :
    List Nat → Told → List Nat → Told → Prop
  | done {region : List Nat} {w : Told} (steady : Steady place g₀ w) :
      Folding place g₀ nested region w region w
  | fold {region left : List Nat} {i stop id next : Nat} {isLoop : Bool}
      {s : Section}
      {w w₁ w' : Told} (steady : Steady place g₀ w)
      (here : region[i]? = some id) (lt : i < stop)
      (there : region[stop]? = some next)
      (head : isLoop = true →
        ∀ first ∈ ((region.take stop).drop i).head?,
          (w.graph.exit first).isJump = false)
      (run : (nested isLoop ((region.take stop).drop i) (some next)).told w =
        .ok (s, w₁))
      (kept : Kept ((region.take stop).drop i) w w₁)
      (inside : id < w₁.graph.blocks.length)
      (rest : Folding place g₀ nested (region.take (i + 1) ++ region.drop stop)
        { w₁ with graph := w₁.graph.fold id s (some next) } left w') :
      Folding place g₀ nested region w left w'

/-- Folding that comes to an end has taken its course. -/
theorem folding_of_told
    (hkeeps : ∀ isLoop list after,
      Confined place g₀ list (nested isLoop list after))
    {fuel i : Nat} {region left : List Nat} (hw : Steady place g₀ w)
    (h : (foldNested inner nested fuel i region).told w = .ok (left, w')) :
    Folding place g₀ nested region w left w' := by
  induction fuel generalizing i region w with
  | zero =>
    obtain ⟨-, rfl, rfl⟩ := foldNested_zero_eq_ok h
    exact .done hw
  | succ n ih =>
    cases told_foldNested hw h with
    | ends _ eq same =>
      subst eq same
      exact .done hw
    | passes run => exact ih hw run
    | @folds isLoop stop id next s w₁ here lt there head inside run rest =>
      obtain ⟨hw₁, hkept⟩ := hkeeps _ _ _ _ _ _ hw run
      have hfold : Confined place g₀ [id]
          (change region fun g => g.fold id s (some next)) :=
        Confined.fold _ _ (List.mem_singleton_self id)
      obtain ⟨hw₂, _⟩ := hfold _ () _ hw₁ (told_change.2 rfl)
      have hinside : id < w₁.graph.blocks.length := by
        rw [hw₁.length, ← hw.length]
        exact inside
      exact .fold hw here lt there
        (fun hl => isJump_head?_slice here lt (head hl)) run hkept
        hinside (ih hw₂ rest)

namespace Folding

variable {region left : List Nat}

/-- The work is steady at the end of the course. -/
theorem steady (h : Folding place g₀ nested region w left w') :
    Steady place g₀ w' := by
  induction h with
  | done steady => exact steady
  | fold _ _ _ _ _ _ _ _ _ ih => exact ih

/-- Folding keeps the head of a region. -/
theorem head?_eq (h : Folding place g₀ nested region w left w') :
    left.head? = region.head? := by
  induction h with
  | done => rfl
  | @fold region _ _ _ _ _ _ _ _ _ _ _ here _ _ _ _ _ _ _ ih =>
    refine ih.trans ?_
    cases region with
    | nil => cases here
    | cons first rest => rfl

/-- Work that is faithful in the end has been so from the start. -/
theorem faithful (h : Folding place g₀ nested region w left w')
    (hfaithful : w'.faithful = true) : w.faithful = true := by
  induction h with
  | done => exact hfaithful
  | fold _ _ _ _ _ _ kept _ _ ih => exact kept.faithful (ih hfaithful)

end Folding

/-- What kind of section a region is, with the regions inside a branch
folded. -/
inductive RegionFound (place : Option Nat → β) (g₀ : Graph) (ctx : Context)
    (inner : Structurer) (after : Option Nat) (w : Told) (s : Section)
    (w' : Told) : Nat → Bool → List Nat → Prop
  | loop {n first : Nat} {rest : List Nat}
      (run : (loop ctx inner first rest after).told w = .ok (s, w')) :
      RegionFound place g₀ ctx inner after w s w' (n + 1) true (first :: rest)
  | jumpEntered {n first : Nat} {rest : List Nat}
      (jump : (w.graph.exit first).isJump = true)
      (run : (jumpEntered ctx inner first rest after).told w = .ok (s, w')) :
      RegionFound place g₀ ctx inner after w s w' (n + 1) false (first :: rest)
  | branch {n first : Nat} {rest others : List Nat} {w₁ : Told}
      (folding : Folding place g₀ (regionSection ctx inner n) (first :: rest) w
        (first :: others) w₁)
      (kept : Kept (first :: others) w₁ w')
      (run : (branch ctx inner first others after).told w₁ = .ok (s, w')) :
      RegionFound place g₀ ctx inner after w s w' (n + 1) false (first :: rest)

/-- A region that is taken apart has taken its course. -/
theorem regionFound_of_run (hkeeps : StructurerConfined place g₀ inner)
    (hw : Steady place g₀ w) {isLoop : Bool} {fuel : Nat} {list : List Nat}
    (h : (regionSection ctx inner fuel isLoop list after).told w =
      .ok (s, w')) :
    RegionFound place g₀ ctx inner after w s w' fuel isLoop list := by
  cases regionTaken_of_told h with
  | loop run => exact .loop run
  | jumpEntered jump run => exact .jumpEntered jump run
  | branch _ fold run =>
    have hfolding := folding_of_told (Confined.regionSection hkeeps _) hw fold
    obtain ⟨_, hkept⟩ := Confined.branch hkeeps _ _ _ _ _ _ hfolding.steady run
    cases hfolding.head?_eq
    exact .branch hfolding hkept run

/-! ### Lists -/

/-- The sections of a list from a position on. -/
inductive SectionsFound (place : Option Nat → β) (g₀ : Graph) (ctx : Context)
    (inner : Structurer) (list : List Nat) (after : Option Nat) :
    Nat → Told → List Section → Told → Prop
  | ends {i : Nat} {w : Told} (past : list.length ≤ i) :
      SectionsFound place g₀ ctx inner list after i w [] w
  | takes {i id next : Nat} {s : Section} {others : List Section}
      {w w₁ w' : Told}
      (steady : Steady place g₀ w) (here : list[i]? = some id) (lt : i < next)
      (found : SectionFound ctx inner list after i id w s next w₁)
      (kept : Kept ((list.take next).drop i) w w₁)
      (rest : SectionsFound place g₀ ctx inner list after next w₁ others w') :
      SectionsFound place g₀ ctx inner list after i w (s :: others) w'

/-- A list that is taken apart has taken its course. -/
theorem sectionsFound_of_told (hkeeps : StructurerConfined place g₀ inner)
    {list : List Nat} {fuel i : Nat} (hw : Steady place g₀ w)
    {ss : List Section}
    (h : (sectionsFrom ctx inner list after fuel i).told w = .ok (ss, w')) :
    SectionsFound place g₀ ctx inner list after i w ss w' := by
  induction fuel generalizing i w ss with
  | zero =>
    obtain ⟨hnone, rfl, rfl⟩ := sectionsFrom_zero_eq_ok h
    exact .ends (List.getElem?_eq_none_iff.1 hnone)
  | succ n ih =>
    cases sectionsTaken_of_told h with
    | ends none eq same =>
      subst eq same
      exact .ends (List.getElem?_eq_none_iff.1 none)
    | takes here run rest eq =>
      subst eq
      obtain ⟨hw₁, hkept, hlt⟩ := Confined.sectionAt hkeeps after here hw run
      exact .takes hw here hlt (told_sectionAt hw here run) hkept
        (ih hw₁ rest)

/-- Work that is faithful in the end has been so from the start. -/
theorem SectionsFound.faithful {list : List Nat} {i : Nat} {ss : List Section}
    (h : SectionsFound place g₀ ctx inner list after i w ss w')
    (hfaithful : w'.faithful = true) : w.faithful = true := by
  induction h with
  | ends => exact hfaithful
  | takes _ _ _ _ kept _ ih => exact kept.faithful (ih hfaithful)

end Decompiler.Partition
