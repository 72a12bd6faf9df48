import Decompiler.Proofs.Graph.Cut
import Decompiler.Graph.Tidy

/-!
# Nothing is folded at the start

Regions are folded into blocks only while a graph is taken apart.  The graph of
a method and its tidy form have no structure in their blocks, whatever the
method is.
-/

namespace Decompiler

variable {m : Method} {g : Graph}

/-- No region has been folded into a block. -/
def Graph.Unfolded (g : Graph) : Prop := ∀ b ∈ g.blocks, b.folded = none

namespace Graph.Unfolded

/-- Linking back folds nothing. -/
theorem linkBack (h : g.Unfolded) : g.linkBack.Unfolded := by
  intro b hb
  obtain ⟨⟨c, n⟩, hmem, rfl⟩ := List.mem_map.1 hb
  exact h c (List.fst_mem_of_mem_zipIdx hmem)

/-- Redirecting folds nothing. -/
theorem redirectAll (h : g.Unfolded) (f : Nat → Nat) :
    (g.redirectAll f).Unfolded := by
  intro b hb
  obtain ⟨c, hc, rfl⟩ := List.mem_map.1 hb
  exact h c hc

/-- A change that folds nothing into a block leaves a graph unfolded. -/
theorem modify (h : g.Unfolded) (id : Nat) {change : Block → Block}
    (hchange : ∀ b, (change b).folded = b.folded) :
    (g.modify id change).Unfolded := by
  intro b hb
  obtain ⟨n, hn⟩ := List.mem_iff_getElem?.1 hb
  simp only [Graph.modify, List.getElem?_modify] at hn
  obtain ⟨c, hc, rfl⟩ := Option.map_eq_some_iff.1 hn
  split
  · rw [hchange]
    exact h c (List.mem_of_getElem? hc)
  · exact h c (List.mem_of_getElem? hc)

/-- Splitting folds nothing. -/
theorem split (h : g.Unfolded) (id k : Nat) : (g.split id k).Unfolded := by
  intro b hb
  rcases List.mem_append.1 hb with hb | hb
  · refine (h.redirectAll _).modify id (fun c => ?_) b hb
    rfl
  · rw [List.mem_singleton.1 hb]

/-- Isolating blocks folds nothing. -/
theorem isolateAll (h : g.Unfolded) {ids : List Nat} {g' : Graph}
    (hok : g.isolateAll m ids = .ok g') : g'.Unfolded := by
  induction ids generalizing g with
  | nil =>
    cases hok
    exact h
  | cons id ids ih =>
    obtain ⟨first, hfirst, hok⟩ := bind_eq_ok.1 hok
    obtain ⟨point, _, hfirst⟩ := bind_eq_ok.1 hfirst
    refine ih ?_ hok
    split at hfirst
    · cases hfirst
      split
      · exact h.split _ _
      · exact h
    · cases hfirst
      exact h

/-- Renumbering folds nothing. -/
theorem renumber (h : g.Unfolded) (dropped : List Nat) :
    (g.renumber dropped).Unfolded := by
  have hlive : Graph.Unfolded
      { g with
        blocks := Order.sortOnPair (fun b => (b.start, b.breakPoint))
          (g.blocks.filter fun b => !dropped.contains b.id) } := fun b hb =>
    h b (List.mem_filter.1 ((Order.perm_sortOnPair _ _).mem_iff.1 hb)).1
  intro b hb
  obtain ⟨⟨c, n⟩, hmem, rfl⟩ := List.mem_map.1 hb
  exact hlive.redirectAll _ c (List.fst_mem_of_mem_zipIdx hmem)

/-- Nothing is folded into a block of an unfolded graph. -/
theorem folded_block (h : g.Unfolded) (id : Nat) :
    (g.block id).folded = none := by
  rcases Nat.lt_or_ge id g.blocks.length with hlt | hge
  · rw [block_eq_of_getElem? (List.getElem?_eq_getElem hlt)]
    exact h _ (List.getElem_mem hlt)
  · rw [block_of_length_le hge]
    rfl

end Graph.Unfolded

/-- Nothing is folded in the graph of a method. -/
theorem unfolded_of_graph (h : m.graph = .ok g) : g.Unfolded := by
  obtain ⟨_, _, h⟩ := bind_eq_ok.1 h
  obtain ⟨blocks, hblocks, h⟩ := bind_eq_ok.1 h
  cases h
  refine Graph.Unfolded.linkBack fun b hb => ?_
  obtain ⟨n, hn⟩ := List.mem_iff_getElem?.1 hb
  have hlt : n < blocks.length := (List.getElem?_eq_some_iff.1 hn).1
  rw [Method.length_of_blocksOf hblocks] at hlt
  obtain ⟨_, _, hget⟩ :=
    Method.getElem?_of_blocksOf hblocks (List.getElem?_eq_getElem hlt)
  rw [hn] at hget
  cases hget
  rfl

/-- Nothing is folded in its tidy form. -/
theorem unfolded_of_tidy {built : Graph} (hbuilt : m.graph = .ok built)
    (htidy : built.tidy m = .ok g) : g.Unfolded := by
  obtain ⟨isolated, hisolated, htidy⟩ := bind_eq_ok.1 htidy
  cases htidy
  exact ((((unfolded_of_graph hbuilt).redirectAll _).isolateAll
    hisolated).renumber _).linkBack

end Decompiler
