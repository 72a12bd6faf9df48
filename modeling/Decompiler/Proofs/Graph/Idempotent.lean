import Decompiler.Proofs.Graph.SameRuns

/-!
# Tidy graphs are at rest

Making a tidy graph tidy once more changes nothing: no block is empty any
more, no block has anything in front of its operands, and the blocks stand in
the order of their instructions under the numbers of their places.

The one step with an argument in it is the split.  Operands are looked for from
the end of a block backwards, and the walk never comes past the place where it
finds them, so it finds the same place when the block starts right there.

* `operandsFrom?_slice`: what is in front of the operands does not matter to
  finding them.
* `Graph.AtRest`: what makes a graph stay as it is; `AtRest.tidy_eq`.
* `Isolating`: what holds while blocks are split; `atRest_of_tidy`.
-/

namespace Decompiler

variable {m : Method} {g g' : Graph} {dropped rest : List Nat}

/-! ## Where operands start -/

/-- One more instruction at the end of a range. -/
theorem Method.slice_succ {start stop : Nat} (h : start ≤ stop)
    (hlen : stop < m.length) :
    m.slice start (stop + 1) = m.slice start stop ++
      [(stop, m.instr stop)] := by
  rw [slice_append h (Nat.le_succ stop),
    slice_of_lt (Nat.lt_succ_self stop) hlen, slice_self]

/-- Behind the end of the code a range has nothing more. -/
theorem Method.slice_succ_of_length_le (start : Nat) {stop : Nat}
    (h : m.length ≤ stop) : m.slice start (stop + 1) = m.slice start stop := by
  have hlen : m.instrs.length ≤ stop := h
  rw [slice, slice, List.take_of_length_le (Nat.le_succ_of_le hlen),
    List.take_of_length_le hlen]

/-- A slice that ends before it starts is empty. -/
theorem Method.slice_of_le {start stop : Nat} (h : stop ≤ start) :
    m.slice start stop = [] := by
  have hnil : (m.instrs.take stop).drop start = [] :=
    List.drop_eq_nil_of_le (Nat.le_trans (List.length_take_le _ _) h)
  simp [slice, hnil]

/-- What is in a slice is not before its start. -/
theorem Method.le_of_mem_slice {start stop k : Nat} {i : Instr}
    (h : (k, i) ∈ m.slice start stop) : start ≤ k := by
  simp only [slice, List.mem_map, Prod.mk.injEq] at h
  obtain ⟨⟨i', k'⟩, hmem, rfl, rfl⟩ := h
  exact List.le_snd_of_mem_zipIdx hmem

/-- What stands in front of the operands does not matter to finding them. -/
theorem operandsFrom?_slice {need start stop k : Nat}
    (h : operandsFrom? need (m.slice start stop).reverse = .ok (some k)) :
    operandsFrom? need (m.slice k stop).reverse = .ok (some k) := by
  induction stop generalizing need with
  | zero =>
    rw [Method.slice_of_le (Nat.zero_le start)] at h
    cases h
  | succ stop ih =>
    obtain ⟨i, hmem⟩ := mem_of_operandsFrom? h
    rw [List.mem_reverse] at hmem
    have hle := Method.le_of_mem_slice hmem
    have hlt := Method.lt_of_mem_slice hmem
    rcases Nat.lt_or_ge stop m.length with hlen | hlen
    · rw [Method.slice_succ (by omega) hlen, List.reverse_append,
        List.reverse_singleton, List.singleton_append] at h ⊢
      rw [operandsFrom?] at h ⊢
      by_cases hmarker : (m.instr stop).isMarker = true
      · rw [if_pos hmarker] at h ⊢
        exact ih h
      · rw [if_neg hmarker] at h ⊢
        obtain ⟨e, he, h⟩ := bind_eq_ok.1 h
        refine bind_eq_ok.2 ⟨e, he, ?_⟩
        by_cases hpushes : e.pushes = 0 ∨ need < e.pushes
        · rw [if_pos hpushes] at h
          cases h
        · rw [if_neg hpushes] at h ⊢
          by_cases hdone : need - e.pushes + e.pops = 0
          · simp only [hdone, if_true] at h ⊢
            exact h
          · simp only [hdone, if_false] at h ⊢
            exact ih h
    · rw [Method.slice_succ_of_length_le _ hlen] at h ⊢
      exact ih h

/-- A block that is to be split nowhere, or with nothing in front. -/
def Block.Isolated (m : Method) (b : Block) : Prop :=
  ∃ point, b.splitPoint? m = .ok point ∧ ∀ k ∈ point, m.acts b.start k = false

namespace Block

variable {b b' : Block} {f : Nat → Nat}

/-- Redirecting edges leaves the place to split at. -/
theorem splitPoint?_eq_of_mapTargets (hexit : b'.exit = b.exit.mapTargets f)
    (hstart : b'.start = b.start) (hstop : b'.stop = b.stop)
    (hbreak : b'.breakPoint = b.breakPoint) :
    b'.splitPoint? m = b.splitPoint? m := by
  have hoperands : b'.operandsFrom? m = b.operandsFrom? m := by
    rw [Block.operandsFrom?, hbreak, hstart, hstop, Block.operandsFrom?]
  rw [splitPoint?, splitPoint?, hexit, hstop, hoperands]
  cases b.exit <;> rfl

/-- An isolated block stays so when its targets are renamed. -/
theorem Isolated.map (h : b.Isolated m) (hexit : b'.exit = b.exit.mapTargets f)
    (hstart : b'.start = b.start) (hstop : b'.stop = b.stop)
    (hbreak : b'.breakPoint = b.breakPoint) : b'.Isolated m := by
  unfold Isolated
  rw [splitPoint?_eq_of_mapTargets hexit hstart hstop hbreak, hstart]
  exact h

/-- Redirecting edges leaves an empty block empty and any other as it is. -/
theorem bypass?_eq_none_of_mapTargets (h : b.bypass? m = none)
    (hexit : b'.exit = b.exit.mapTargets f) (hstart : b'.start = b.start)
    (hstop : b'.stop = b.stop) (hentry : b'.entry = b.entry) :
    b'.bypass? m = none := by
  unfold bypass? at h ⊢
  rw [hexit, hstart, hstop, hentry]
  cases hb : b.exit with
  | falls next =>
    cases next with
    | none => rfl
    | some t =>
      cases he : b.entry with
      | plain => simpa [hb, he, Exit.mapTargets] using h
      | handler type => rfl
  | jumps | branches | selects | returns | throws => rfl

/-- A block that is not led past does something. -/
theorem acts_of_bypass? (h : b.bypass? m = none) {t : Nat}
    (hexit : b.exit = .falls (some t)) (hentry : b.entry = .plain) :
    m.acts b.start b.stop = true := by
  simpa [bypass?, hexit, hentry] using h

/-- A jump that is not to be split has nothing in front of it. -/
theorem Isolated.acts_eq_false (h : b.Isolated m) {t : Nat}
    (hexit : b.exit = .jumps t) : m.acts b.start b.stop = false := by
  obtain ⟨point, hpoint, hidle⟩ := h
  rw [splitPoint?, hexit] at hpoint
  cases hpoint
  exact hidle _ rfl

/-- A block that starts where it was to be split is not to be split again. -/
theorem isolated_of_splitPoint? {k : Nat} (h : b.splitPoint? m = .ok (some k))
    (hexit : b'.exit = b.exit.mapTargets f) (hstart : b'.start = k)
    (hstop : b'.stop = b.stop) (hbreak : b'.breakPoint = b.breakPoint) :
    b'.Isolated m := by
  refine ⟨some k, ?_, fun j hj => ?_⟩
  · have hoperands (h : b.operandsFrom? m = .ok (some k)) :
        b'.operandsFrom? m = .ok (some k) := by
      obtain ⟨e, he, h⟩ := bind_eq_ok.1 h
      refine bind_eq_ok.2 ⟨e, by rw [hbreak]; exact he, ?_⟩
      rw [hstart, hstop]
      exact operandsFrom?_slice h
    unfold splitPoint? at h ⊢
    rw [hexit]
    cases hb : b.exit with
    | jumps t =>
      rw [hb] at h
      rw [← h, ← hstop]
      rfl
    | branches t o =>
      rw [hb] at h
      exact hoperands h
    | selects arms default =>
      rw [hb] at h
      exact hoperands h
    | falls | returns | throws =>
      rw [hb] at h
      cases h
  · cases hj
    rw [hstart]
    exact m.acts_self k

end Block

/-! ## Graphs that stay as they are -/

/-- A graph that nothing is left to be done for. -/
structure Graph.AtRest (g : Graph) (m : Method) : Prop where
  numbered : g.Numbered
  closed : ∀ n < g.blocks.length, ∀ t ∈ (g.block n).exit.successors,
  t < g.blocks.length
  labels : ∀ p ∈ g.labels, p.2 < g.blocks.length
  busy : ∀ n < g.blocks.length, (g.block n).bypass? m = none
  isolated : ∀ n < g.blocks.length, (g.block n).Isolated m
  sorted : g.blocks.Pairwise fun b c =>
    Order.notBehind (b.start, b.breakPoint) (c.start, c.breakPoint)
  linked : g.linkBack = g

namespace Graph

/-- A block of a graph has a number. -/
theorem exists_of_mem_blocks {b : Block} (h : b ∈ g.blocks) :
    ∃ n < g.blocks.length, g.block n = b := by
  obtain ⟨n, hn, rfl⟩ := List.mem_iff_getElem.1 h
  exact ⟨n, hn, block_eq_of_getElem? (List.getElem?_eq_getElem hn)⟩

/-- Edges that are led where they led stay. -/
theorem mapTargets_eq_self {e : Exit} {f : Nat → Nat}
    (h : ∀ t ∈ e.successors, f t = t) : e.mapTargets f = e := by
  cases e with
  | falls next => cases next <;> simp_all [Exit.mapTargets, Exit.successors]
  | jumps target => simp_all [Exit.mapTargets, Exit.successors]
  | branches taken otherwise =>
    cases otherwise <;> simp_all [Exit.mapTargets, Exit.successors]
  | selects arms default =>
    simp only [Exit.successors, List.mem_append, List.mem_map,
      List.mem_singleton] at h
    have harms : (arms.map fun a => { a with target := f a.target }) =
        arms.map id :=
      List.map_congr_left fun a ha => by rw [h a.target (.inl ⟨a, ha, rfl⟩), id]
    rw [List.map_id] at harms
    rw [Exit.mapTargets, harms, h default (.inr rfl)]
  | returns | throws => rfl

/-- Redirecting that moves no edge and no label changes nothing. -/
theorem redirectAll_eq_self {f : Nat → Nat}
    (hedges : ∀ n < g.blocks.length, ∀ t ∈ (g.block n).exit.successors, f t = t)
    (hlabels : ∀ p ∈ g.labels, f p.2 = p.2) : g.redirectAll f = g := by
  have hblocks : (g.redirectAll f).blocks = g.blocks.map id := by
    refine List.map_congr_left fun b hb => ?_
    obtain ⟨n, hn, rfl⟩ := exists_of_mem_blocks hb
    rw [mapTargets_eq_self (hedges n hn), id]
  have hnames : (g.redirectAll f).labels = g.labels.map id :=
    List.map_congr_left fun p hp => Prod.ext rfl (hlabels p hp)
  calc g.redirectAll f
    _ = ⟨(g.redirectAll f).blocks, (g.redirectAll f).labels⟩ := rfl
    _ = g := by rw [hblocks, hnames, List.map_id, List.map_id]

namespace AtRest

variable (h : g.AtRest m)

include h

/-- No block is led past. -/
theorem settle_eq (fuel id : Nat) : g.settle m fuel id = id := by
  have hbypass : (g.block id).bypass? m = none := by
    rcases Nat.lt_or_ge id g.blocks.length with hlt | hge
    · exact h.busy id hlt
    · rw [block_of_length_le hge]
      rfl
  cases fuel with
  | zero => rfl
  | succ n => rw [settle, hbypass]

/-- In a graph at rest there is nothing to go past. -/
theorem bypass_eq : g.bypass m = g :=
  redirectAll_eq_self (fun _ _ t _ => h.settle_eq _ t) fun p _ =>
    h.settle_eq _ p.2

/-- No block is split. -/
theorem isolateAll_eq {ids : List Nat}
    (hids : ∀ id ∈ ids, id < g.blocks.length) : g.isolateAll m ids = .ok g := by
  induction ids with
  | nil => rfl
  | cons id ids ih =>
    obtain ⟨point, hpoint, hidle⟩ := h.isolated id (hids id List.mem_cons_self)
    have hsame : g.isolate m id = .ok g := by
      refine bind_eq_ok.2 ⟨point, hpoint, ?_⟩
      cases point with
      | none => rfl
      | some k =>
        simp only [hidle k rfl]
        rfl
    exact bind_eq_ok.2
      ⟨g, hsame, ih fun n hn => hids n (List.mem_cons_of_mem _ hn)⟩

/-- Where no block is idle, all are kept. -/
theorem kept_eq : g.kept [] = g.blocks := by
  have hall : (g.blocks.filter fun b => !([] : List Nat).contains b.id) =
      g.blocks :=
    List.filter_eq_self.2 fun _ _ => rfl
  rw [kept, hall]
  exact Order.sortOnPair_eq_self h.sorted

/-- Every block keeps its number. -/
theorem renumbered_eq {n : Nat} (hn : n < g.blocks.length) :
    g.renumbered [] n = n := by
  have hget :=
    getElem?_kept_renumbered h.numbered hn (List.not_mem_nil (a := n))
  rw [h.kept_eq] at hget
  obtain ⟨hlt, _⟩ := List.getElem?_eq_some_iff.1 hget
  rw [block_mem hlt] at hget
  rw [← h.numbered _ hlt, Option.some.inj hget, h.numbered n hn]

/-- Where no block is idle, none gets a new number. -/
theorem renumber_eq : g.renumber [] = g := by
  have hkept : Order.sortOnPair (fun b => (b.start, b.breakPoint))
      (g.blocks.filter fun b => !([] : List Nat).contains b.id) = g.blocks :=
        h.kept_eq
  have hmoved : g.redirectAll (g.renumbered []) = g :=
    redirectAll_eq_self (fun n hn t ht => h.renumbered_eq (h.closed n hn t ht))
      fun p hp => h.renumbered_eq (h.labels p hp)
  unfold renumbered kept at hmoved
  simp only [hkept] at hmoved
  simp only [renumber, hkept, hmoved]
  refine congrArg (Graph.mk · g.labels) (List.ext_getElem? fun n => ?_)
  rcases Nat.lt_or_ge n g.blocks.length with hlt | hge
  · have hid := h.numbered n hlt
    rw [List.getElem?_map, List.getElem?_zipIdx, block_mem hlt]
    generalize g.block n = b at hid
    subst hid
    simp
  · rw [List.getElem?_eq_none hge, List.getElem?_eq_none (by simpa using hge)]

/-- **At rest.**  Tidying leaves a graph at rest as it is. -/
theorem tidy_eq : g.tidy m = .ok g := by
  have hbusy : (List.range g.blocks.length).filter
      (fun id => ((g.block id).bypass? m).isSome) = [] := by
    refine List.filter_eq_nil_iff.2 fun id hid => ?_
    rw [h.busy id (List.mem_range.1 hid)]
    simp
  have hisolated :
      (g.bypass m).isolateAll m ((List.range g.blocks.length).filter
      fun id => !((g.block id).bypass? m).isSome) = .ok g := by
    rw [h.bypass_eq]
    exact h.isolateAll_eq fun id hid =>
      List.mem_range.1 (List.mem_filter.1 hid).1
  refine bind_eq_ok.2 ⟨g, hisolated, ?_⟩
  simp only [hbusy, h.renumber_eq, h.linked]
  rfl

end AtRest

end Graph

/-! ## The way to rest -/

/-- A graph whose blocks are being split: nothing leads to the blocks that are
to be dropped, the others are not empty, and those that have had their turn are
split no more. -/
structure Isolating (m : Method) (g : Graph) (dropped rest : List Nat) :
    Prop where
  tracked : ∃ first, Tracked g dropped first
  labels : ∀ p ∈ g.labels, p.2 < g.blocks.length ∧ p.2 ∉ dropped
  busy : ∀ n < g.blocks.length, n ∉ dropped → (g.block n).bypass? m = none
  isolated : ∀ n < g.blocks.length, n ∉ dropped → n ∉ rest →
  (g.block n).Isolated m

/-- A label is placed where a block follows. -/
theorem Method.lt_of_mem_spanLabels {spans : List Span} {p : Label × Nat}
    (h : p ∈ m.spanLabels spans) : p.2 < spans.length := by
  obtain ⟨⟨span, id⟩, _, hlabel⟩ := List.mem_filterMap.1 h
  simp only at hlabel
  split at hlabel
  · split at hlabel
    · cases hlabel
      assumption
    · cases hlabel
  · cases hlabel

/-- A label stands in front of a block that there is. -/
theorem Method.lt_of_mem_labels (h : m.graph = .ok g) {p : Label × Nat}
    (hp : p ∈ g.labels) : p.2 < g.blocks.length := by
  obtain ⟨bs, _, h⟩ := bind_eq_ok.1 h
  obtain ⟨blocks, hblocks, h⟩ := bind_eq_ok.1 h
  cases h
  rw [Graph.length_linkBack, Method.length_of_blocksOf hblocks]
  exact Method.lt_of_mem_spanLabels hp

/-- Edges lead past the empty blocks, and no other block has had its turn. -/
theorem isolating_bypass (hbuilt : m.graph = .ok g)
    (hpos : 0 < g.blocks.length) :
    Isolating m (g.bypass m) (g.idle m)
      ((List.range g.blocks.length).filter fun id =>
      !((g.block id).bypass? m).isSome) := by
  obtain ⟨ends, bs, _, hmade⟩ := madeFrom_of_graph hbuilt
  have hlen := g.length_bypass m
  have hblock := g.block_bypass m
  have hforward (n t : Nat) (hexit : (g.block n).exit = .falls (some t)) :=
    hmade.forward hexit
  have hclosed (n t : Nat) (ht : t ∈ (g.block n).exit.successors) :=
    hmade.lt_of_successors ht
  refine ⟨⟨_, tracked_bypass hbuilt hpos⟩, fun p hp => ?_, fun n hn hlive => ?_,
    fun n hn hlive hturn => absurd ?_ hturn⟩
  · obtain ⟨q, hq, rfl⟩ := List.mem_map.1 hp
    refine ⟨hlen.symm ▸ ?_,
      Graph.not_mem_idle (Graph.bypass?_settle hforward _ (by omega))⟩
    exact Graph.settle_lt hclosed _ (Method.lt_of_mem_labels hbuilt hq)
  · exact Block.bypass?_eq_none_of_mapTargets
      (Graph.bypass?_of_not_mem_idle (hlen ▸ hn) hlive)
      (by rw [hblock]) (by rw [hblock]) (by rw [hblock]) (by rw [hblock])
  · refine List.mem_filter.2 ⟨List.mem_range.2 (hlen ▸ hn), ?_⟩
    simp [Graph.bypass?_of_not_mem_idle (hlen ▸ hn) hlive]

namespace Isolating

variable {id k : Nat}

/-- Splitting a block where its operands start. -/
theorem split (h : Isolating m g dropped (id :: rest))
    (hid : id < g.blocks.length) (hlive : id ∉ dropped)
    (hk : (g.block id).splitPoint? m = .ok (some k))
    (hacts : m.acts (g.block id).start k = true) :
    Isolating m (g.split id k) dropped rest := by
  obtain ⟨first, htracked⟩ := h.tracked
  have hself := g.block_split_self (k := k) hid
  have hother {n : Nat} (hn : n < g.blocks.length) (hne : n ≠ id) :=
    g.block_split_of_ne (k := k) hn hne
  have hfresh : g.blocks.length ∉ dropped := fun hmem =>
    absurd (htracked.bound _ hmem) (Nat.lt_irrefl _)
  refine ⟨⟨_, tracked_split htracked hid hlive (Method.lt_of_acts hacts)⟩,
    fun p hp => ?_,
    fun n hn hnlive => ?_, fun n hn hnlive hturn => ?_⟩
  · obtain ⟨q, hq, rfl⟩ := List.mem_map.1 hp
    obtain ⟨hlt, hq⟩ := h.labels q hq
    rw [Graph.length_split]
    simp only
    split
    · exact ⟨Nat.lt_succ_self _, hfresh⟩
    · exact ⟨Nat.lt_succ_of_lt hlt, hq⟩
  · rcases Graph.eq_or_ne_of_lt_split hid hn with rfl | rfl | ⟨hn, hne⟩
    · have hjump := Block.hasJump_of_splitPoint? hk
      rw [hself, Block.bypass?]
      cases hexit : (g.block n).exit with
      | falls | returns | throws =>
        rw [hexit] at hjump
        cases hjump
      | jumps | branches | selects => rfl
    · rw [Graph.block_split_front, Block.bypass?]
      simp only [hacts, if_true]
      split <;> rfl
    · exact Block.bypass?_eq_none_of_mapTargets (h.busy n hn hnlive)
        (by rw [hother hn hne])
        (by rw [hother hn hne]) (by rw [hother hn hne]) (by rw [hother hn hne])
  · rcases Graph.eq_or_ne_of_lt_split hid hn with rfl | rfl | ⟨hn, hne⟩
    · exact Block.isolated_of_splitPoint? hk (by rw [hself]) (by rw [hself])
        (by rw [hself]) (by rw [hself])
    · rw [Graph.block_split_front]
      exact ⟨none, rfl, fun j hj => by cases hj⟩
    · have hturn : n ∉ id :: rest := fun hmem =>
        hturn ((List.mem_cons.1 hmem).resolve_left hne)
      exact (h.isolated n hn hnlive hturn).map (by rw [hother hn hne])
        (by rw [hother hn hne]) (by rw [hother hn hne]) (by rw [hother hn hne])

/-- A block has its turn. -/
theorem isolate (h : Isolating m g dropped (id :: rest))
    (hid : id < g.blocks.length) (hlive : id ∉ dropped)
    (hok : g.isolate m id = .ok g') :
    Isolating m g' dropped rest ∧ g.blocks.length ≤ g'.blocks.length := by
  obtain ⟨point, hpoint, hidle, rfl⟩ | ⟨k, hk, hacts, rfl⟩ :=
    Graph.isolate_eq_ok hok
  · refine ⟨⟨h.tracked, h.labels, h.busy, fun n hn hnlive hturn => ?_⟩,
      Nat.le_refl _⟩
    by_cases hne : n = id
    · exact hne ▸ ⟨point, hpoint, hidle⟩
    · exact h.isolated n hn hnlive (by simp [hne, hturn])
  · exact ⟨h.split hid hlive hk hacts, by rw [Graph.length_split]; omega⟩

/-- Every block has its turn. -/
theorem isolateAll {ids : List Nat} (h : Isolating m g dropped ids)
    (hids : ∀ id ∈ ids, id < g.blocks.length ∧ id ∉ dropped)
    (hok : g.isolateAll m ids = .ok g') : Isolating m g' dropped [] := by
  induction ids generalizing g with
  | nil =>
    cases hok
    exact h
  | cons id ids ih =>
    obtain ⟨g₁, hfirst, hok⟩ := bind_eq_ok.1 hok
    obtain ⟨hid, hlive⟩ := hids id List.mem_cons_self
    obtain ⟨h₁, hlen⟩ := h.isolate hid hlive hfirst
    refine ih h₁ (fun n hn => ?_) hok
    obtain ⟨hlt, hlive⟩ := hids n (List.mem_cons_of_mem _ hn)
    exact ⟨Nat.lt_of_lt_of_le hlt hlen, hlive⟩

end Isolating

/-! ## Tidy graphs -/

namespace Graph

/-- The blocks with their numbers. -/
theorem zipIdx_blocks (g : Graph) :
    g.blocks.zipIdx = (List.range g.blocks.length).map fun n =>
      (g.block n, n) := by
  refine List.ext_getElem? fun n => ?_
  rw [List.getElem?_zipIdx, List.getElem?_map]
  rcases Nat.lt_or_ge n g.blocks.length with hlt | hge
  · rw [block_mem hlt, List.getElem?_range hlt, Option.map_some,
      Option.map_some, Nat.zero_add]
  · simp [hge]

/-- The predecessors that a block is given. -/
theorem preds_linkBack {n : Nat} (hn : n < g.blocks.length) :
    g.linkBack.block n = { g.block n with
      preds := (List.range g.blocks.length).filter fun j =>
        (g.block j).exit.successors.contains n } := by
  apply block_eq_of_getElem?
  simp only [linkBack, zipIdx_blocks, List.getElem?_map, List.getElem?_range hn,
    List.filter_map, List.map_map, Option.map_some, Function.comp_def,
    List.map_id']

/-- Finding the predecessors again finds the same. -/
theorem linkBack_linkBack (g : Graph) : g.linkBack.linkBack = g.linkBack := by
  have hlength := g.length_linkBack
  have hexit {j : Nat} (hj : j < g.blocks.length) :
      (g.linkBack.block j).exit = (g.block j).exit := by rw [preds_linkBack hj]
  have hblocks : g.linkBack.linkBack.blocks = g.linkBack.blocks := by
    refine List.ext_getElem? fun n => ?_
    rcases Nat.lt_or_ge n g.blocks.length with hlt | hge
    · have hlinked : n < g.linkBack.blocks.length := hlength ▸ hlt
      have hpreds : ((List.range g.blocks.length).filter fun j =>
            (g.linkBack.block j).exit.successors.contains n) =
          (List.range g.blocks.length).filter fun j =>
            (g.block j).exit.successors.contains n :=
        List.filter_congr fun j hj => by rw [hexit (List.mem_range.1 hj)]
      rw [block_mem (g.linkBack.length_linkBack.symm ▸ hlinked),
        block_mem hlinked, preds_linkBack hlinked, preds_linkBack hlt,
        hlength, hpreds]
    · rw [List.getElem?_eq_none
        (by rw [length_linkBack, length_linkBack]; exact hge),
        List.getElem?_eq_none (by rw [length_linkBack]; exact hge)]
  exact congrArg (Graph.mk · g.labels) hblocks

/-- When every block has had its turn, numbering the blocks brings the graph to
rest. -/
theorem atRest_of_isolating (h : Isolating m g dropped []) :
    (g.renumber dropped).linkBack.AtRest m := by
  obtain ⟨first, htracked⟩ := h.tracked
  have hnumbered := htracked.numbered
  refine
    { numbered := fun n hn => ?_
      closed := fun n hn t ht => ?_
      labels := fun p hp => ?_
      busy := fun n hn => ?_
      isolated := fun n hn => ?_
      sorted := ?_
      linked := linkBack_linkBack _ }
  · obtain ⟨p, hp, _, hget⟩ := exists_of_lt_renumber hnumbered hn
    obtain ⟨preds, hblock⟩ := block_linkBack_renumber hget
    rw [hblock]
  · obtain ⟨p, hp, _, hget⟩ := exists_of_lt_renumber hnumbered hn
    obtain ⟨preds, hblock⟩ := block_linkBack_renumber hget
    rw [hblock, Exit.successors_mapTargets] at ht
    obtain ⟨s, hs, rfl⟩ := List.mem_map.1 ht
    obtain ⟨hlt, hlive⟩ := htracked.live p hp s hs
    exact lt_length_renumber (getElem?_kept_renumbered hnumbered hlt hlive)
  · obtain ⟨q, hq, rfl⟩ := List.mem_map.1 hp
    obtain ⟨hlt, hlive⟩ := h.labels q hq
    exact lt_length_renumber (getElem?_kept_renumbered hnumbered hlt hlive)
  · obtain ⟨p, hp, hlive, hget⟩ := exists_of_lt_renumber hnumbered hn
    obtain ⟨preds, hblock⟩ := block_linkBack_renumber hget
    exact Block.bypass?_eq_none_of_mapTargets (h.busy p hp hlive)
      (by rw [hblock]) (by rw [hblock]) (by rw [hblock]) (by rw [hblock])
  · obtain ⟨p, hp, hlive, hget⟩ := exists_of_lt_renumber hnumbered hn
    obtain ⟨preds, hblock⟩ := block_linkBack_renumber hget
    exact (h.isolated p hp hlive List.not_mem_nil).map (by rw [hblock])
      (by rw [hblock]) (by rw [hblock]) (by rw [hblock])
  · have hkey {n : Nat} (hn : n < (g.renumber dropped).linkBack.blocks.length) :
        ∃ h : n < (g.kept dropped).length,
          (((g.renumber dropped).linkBack.blocks[n]).start,
            ((g.renumber dropped).linkBack.blocks[n]).breakPoint) =
          ((g.kept dropped)[n].start, (g.kept dropped)[n].breakPoint) := by
      have hkept : n < (g.kept dropped).length := by
        rwa [length_linkBack, length_renumber] at hn
      obtain ⟨preds, hblock⟩ :=
        block_linkBack_renumber (List.getElem?_eq_getElem hkept)
      rw [block_eq_of_getElem? (List.getElem?_eq_getElem hn)] at hblock
      exact ⟨hkept, by rw [hblock]⟩
    refine List.pairwise_iff_getElem.2 fun i j hi hj hij => ?_
    obtain ⟨hki, hi⟩ := hkey hi
    obtain ⟨hkj, hj⟩ := hkey hj
    rw [hi, hj]
    exact List.pairwise_iff_getElem.1
      (Order.pairwise_notBehind_sortOnPair
        (fun b : Block => (b.start, b.breakPoint)) _)
      i j hki hkj hij

end Graph

/-- Without blocks there is nothing left to be done. -/
theorem Graph.atRest_nil : (⟨[], []⟩ : Graph).AtRest m where
  numbered _ hn := absurd hn (Nat.not_lt_zero _)
  closed _ hn := absurd hn (Nat.not_lt_zero _)
  labels _ hp := absurd hp List.not_mem_nil
  busy _ hn := absurd hn (Nat.not_lt_zero _)
  isolated _ hn := absurd hn (Nat.not_lt_zero _)
  sorted := .nil
  linked := rfl

/-- The tidy graph of a method is at rest. -/
theorem atRest_of_tidy {built tidy : Graph} (hbuilt : m.graph = .ok built)
    (htidy : built.tidy m = .ok tidy) : tidy.AtRest m := by
  rcases Nat.eq_zero_or_pos built.blocks.length with hzero | hpos
  · have hlabels : built.labels = [] :=
      List.eq_nil_iff_forall_not_mem.2 fun p hp => by
        have hlt := Method.lt_of_mem_labels hbuilt hp
        omega
    obtain rfl : built = ⟨[], []⟩ := by
      rw [← List.length_eq_zero_iff.1 hzero, ← hlabels]
    cases htidy
    exact Graph.atRest_nil
  · obtain ⟨isolated, hisolated, htidy⟩ := bind_eq_ok.1 htidy
    cases htidy
    exact Graph.atRest_of_isolating
      ((isolating_bypass hbuilt hpos).isolateAll built.stays_of_mem_busy
        hisolated)

/-- **Idempotence.**  Making the tidy graph of a method tidy again succeeds and
leaves it as it is: the order of its blocks, all that they hold, and the blocks
of its labels. -/
theorem tidy_eq_self_of_tidy {built tidy : Graph} (hbuilt : m.graph = .ok built)
    (htidy : built.tidy m = .ok tidy) : tidy.tidy m = .ok tidy :=
  (atRest_of_tidy hbuilt htidy).tidy_eq

/-- An exception range, a switch behind a call, and two labels at one place:
five blocks are dropped, two are split, and then nothing changes any more. -/
theorem tidy_eq_self_of_guardedSwitch :
    let m : Method :=
      { instrs := [.label ⟨0⟩, .call .static ⟨"C", "a", "()V"⟩, .load .int 0,
          .lookupSwitch ⟨2⟩ [(7, ⟨1⟩), (3, ⟨2⟩)], .label ⟨1⟩, .label ⟨2⟩,
          .call .static ⟨"C", "b", "()V"⟩, .label ⟨3⟩, .goto ⟨5⟩, .label ⟨4⟩,
          .store .reference 1, .goto ⟨5⟩, .label ⟨5⟩, .ret none],
        ranges := [⟨⟨0⟩, ⟨3⟩, ⟨4⟩, some "E"⟩] }
    ∃ built tidy, m.graph = .ok built ∧ built.tidy m = .ok tidy ∧
      built.blocks.length = 10 ∧ tidy.blocks.length = 7 ∧
      tidy.tidy m = .ok tidy := by
  intro m
  have hrun : (do
      let built ← m.graph
      let tidy ← built.tidy m
      return (built.blocks.length, tidy.blocks.length)) =
        .ok (10, 7) := by decide +kernel
  obtain ⟨built, hbuilt, hrun⟩ := bind_eq_ok.1 hrun
  obtain ⟨tidy, htidy, hrun⟩ := bind_eq_ok.1 hrun
  obtain ⟨hbefore, hafter⟩ := Prod.mk.inj (Except.ok.inj hrun)
  exact ⟨built, tidy, hbuilt, htidy, hbefore, hafter,
    tidy_eq_self_of_tidy hbuilt htidy⟩

end Decompiler
