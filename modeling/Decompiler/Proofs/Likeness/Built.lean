import Decompiler.Proofs.Graph.Total
import Decompiler.Proofs.Likeness.Statements

/-!
# What a graph is built of

A method is cut at the instructions that end a block and at the labels that
something refers to.  A graph is built of it if a block starts after every label
that a jump or switch goes to; there is no other way to fail.

* `Method.targets`, `Method.referred`: the labels of jumps and switches, and
  those of exception ranges with them.
* `Method.breaks`, `Method.spans`, `Method.find?`: where a method is cut, its
  parts, and the part after a label.
* `Method.endsAlike_graph`: whether two methods have graphs.
* `Method.block_of_graph`: the blocks.
-/

namespace Decompiler

namespace Method

/-- The labels that jumps and switches go to. -/
def targets (m : Method) : List Label := m.instrs.flatMap Instr.destinations

/-- The labels that exception ranges refer to. -/
def boundaries (m : Method) : List Label :=
  m.ranges.flatMap fun r => [r.start, r.stop, r.handler]

/-- The labels that something refers to. -/
def referred (m : Method) : List Label := m.targets ++ m.boundaries

/-- Whether a block ends at an instruction. -/
def ends (m : Method) (i : Nat) : Bool :=
  (m.instr i).endsBlock || m.referred.any fun l => m.labelIndex? l == some i

/-- The instructions that end a block, in ascending order. -/
def breaks (m : Method) : List Nat := (List.range m.length).filter m.ends

/-- The parts that a method is cut into. -/
def spans (m : Method) : List Span := m.cut 0 m.breaks

/-- The number of the part that starts after a label. -/
def find? (m : Method) (l : Label) : Option Nat :=
  (m.spanLabels m.spans).lookup l

variable {m m' : Method} {g g' : Graph}

/-- A block ends where the instruction ends it, or where a label that is
referred to stands. -/
theorem ends_iff {i : Nat} : m.ends i = true ↔
    (m.instr i).endsBlock = true ∨ ∃ l ∈ m.referred,
      m.labelIndex? l = some i := by
  simp [ends]

/-- The breaks are the positions at which a block ends. -/
theorem mem_breaks {i : Nat} : i ∈ m.breaks ↔ i < m.length ∧
      m.ends i = true := by
  simp [breaks]

/-- The breaks ascend. -/
theorem pairwise_breaks (m : Method) : m.breaks.Pairwise (· < ·) :=
  List.pairwise_lt_range.filter _

/-- The labels at the ends of parts, one part after the other. -/
def endLabels (m : Method) (spans : List Span) : List (Option Label) :=
  spans.map fun s => (m.instr s.breakPoint).label?

/-- The labels of spans are those at the ends of the spans before. -/
theorem spanLabels_eq (m : Method) (spans : List Span) :
    m.spanLabels spans =
      (m.endLabels spans).zipIdx.filterMap fun (label?, id) =>
      match label? with
      | some l => if id + 1 < spans.length then some (l, id + 1) else none
      | none => none := by
  rw [endLabels, List.zipIdx_map, List.filterMap_map]
  rfl

/-! ### Faults -/

/-- Locating fails for a label without a place only. -/
theorem kind_of_locate {find : Label → Option Nat} {index : Nat}
    {ls : List Label} {e : Fault} (h : locate find index ls = .error e) :
    e.kind = .unresolvedLabel := by
  induction ls with
  | nil => cases h
  | cons l ls ih =>
    rw [locate] at h
    split at h
    · cases h
      rfl
    · cases hrest : locate find index ls with
      | error e' =>
        rw [hrest] at h
        cases h
        exact ih hrest
      | ok ts =>
        rw [hrest] at h
        cases h

/-- Looking up destinations fails for a label without a place only. -/
theorem kind_of_destinations {xs : List (Nat × Instr)} {e : Fault}
    (h : m.destinations xs = .error e) : e.kind = .unresolvedLabel := by
  induction xs with
  | nil => cases h
  | cons x xs ih =>
    rw [destinations] at h
    cases hhere : locate m.labelIndex? x.1 x.2.destinations with
    | error e' =>
      rw [hhere] at h
      cases h
      exact kind_of_locate hhere
    | ok here =>
      cases hothers : m.destinations xs with
      | error e' =>
        rw [hhere, hothers] at h
        cases h
        exact ih hothers
      | ok others =>
        rw [hhere, hothers] at h
        cases h

/-- Cutting into blocks fails for a label without a place only. -/
theorem kind_of_blocksOf {find : Label → Option Nat} {count id : Nat}
    {spans : List Span} {e : Fault}
    (h : m.blocksOf find count id spans = .error e) :
    e.kind = .unresolvedLabel := by
  induction spans generalizing id with
  | nil => cases h
  | cons s spans ih =>
    rw [blocksOf] at h
    cases htargets :
      locate find s.breakPoint (m.instr s.breakPoint).destinations with
    | error e' =>
      rw [htargets] at h
      cases h
      exact kind_of_locate htargets
    | ok targets =>
      cases hrest : m.blocksOf find count (id + 1) spans with
      | error e' =>
        rw [htargets, hrest] at h
        cases h
        exact ih hrest
      | ok rest =>
        rw [htargets, hrest] at h
        cases h

/-- A graph is built unless a label is not resolved. -/
theorem kind_of_graph {e : Fault} (h : m.graph = .error e) :
    e.kind = .unresolvedLabel := by
  rw [graph, breakPoints] at h
  cases hds : m.destinations (m.slice 0 m.length) with
  | error e' =>
    rw [hds] at h
    cases h
    exact kind_of_destinations hds
  | ok ds =>
    rw [hds] at h
    simp only [bind, Except.bind, pure, Except.pure] at h
    split at h
    · rename_i hblocks
      cases h
      exact kind_of_blocksOf hblocks
    · cases h

/-! ### Break points -/

/-- The targets of a method are the destinations of its instructions. -/
theorem mem_targets {l : Label} :
    l ∈ m.targets ↔ ∃ k < m.length, l ∈ (m.instr k).destinations := by
  rw [targets, List.mem_flatMap]
  constructor
  · rintro ⟨i, hi, hl⟩
    obtain ⟨k, hk, rfl⟩ := List.mem_iff_getElem.1 hi
    refine ⟨k, hk, ?_⟩
    rwa [instr, List.getD_eq_getElem?_getD, List.getElem?_eq_getElem hk,
      Option.getD_some]
  · rintro ⟨k, hk, hl⟩
    have hlen : k < m.instrs.length := hk
    rw [instr, List.getD_eq_getElem?_getD, List.getElem?_eq_getElem hlen,
      Option.getD_some] at hl
    exact ⟨_, List.getElem_mem hlen, hl⟩

/-- An instruction that goes to a label ends a block. -/
theorem endsBlock_of_mem_destinations {i : Instr} {l : Label}
    (h : l ∈ i.destinations) : i.endsBlock = true := by
  cases i with
  | goto | ifZero | ifInts | ifReferences | ifNull | ifNonNull | tableSwitch | lookupSwitch => rfl
  | _ => cases h

/-- The destinations that are found are where the labels are. -/
theorem map_of_destinations {xs : List (Nat × Instr)} {ds : List Nat}
    (h : m.destinations xs = .ok ds) :
    (xs.flatMap fun x => x.2.destinations).map m.labelIndex? = ds.map some := by
  induction xs generalizing ds with
  | nil =>
    cases h
    rfl
  | cons x xs ih =>
    obtain ⟨here, hhere, h⟩ := bind_eq_ok.1 h
    obtain ⟨others, hothers, h⟩ := bind_eq_ok.1 h
    cases h
    rw [List.flatMap_cons, List.map_append, List.map_append,
      map_of_locate hhere, ih hothers]

/-- The labels that jumps and switches go to are found in the stream. -/
theorem mem_destinations {ds : List Nat}
    (h : m.destinations (m.slice 0 m.length) = .ok ds) {i : Nat} : i ∈ ds ↔
      ∃ l ∈ m.targets, m.labelIndex? l = some i := by
  have hsome : i ∈ ds ↔ some i ∈ ds.map some := by simp
  rw [hsome, ← map_of_destinations h, List.mem_map]
  refine exists_congr fun l => and_congr_left fun _ => ?_
  simp only [List.mem_flatMap, mem_slice_all_iff, mem_targets]
  constructor
  · rintro ⟨x, ⟨hx, heq⟩, hl⟩
    exact ⟨x.1, hx, heq ▸ hl⟩
  · rintro ⟨k, hk, hl⟩
    exact ⟨(k, m.instr k), ⟨hk, rfl⟩, hl⟩

/-- The break points that are found are the breaks. -/
theorem eq_breaks_of_breakPoints {bs : List Nat} (h : m.breakPoints = .ok bs) :
    bs = m.breaks := by
  obtain ⟨ds, hds, h⟩ := bind_eq_ok.1 h
  cases h
  have hbounds (i : Nat) : i ∈ m.rangeBoundaries ↔ ∃ l ∈ m.boundaries,
      m.labelIndex? l = some i :=
    List.mem_filterMap
  refine List.filter_congr fun i _ => ?_
  rw [Bool.eq_iff_iff, ends_iff, Bool.or_eq_true, Bool.or_eq_true,
    List.contains_iff_mem, List.contains_iff_mem, mem_destinations hds, hbounds,
    or_assoc]
  simp only [referred, List.mem_append, or_and_right, exists_or]

/-- What a graph is built from. -/
theorem exists_blocksOf_of_graph (h : m.graph = .ok g) :
    ∃ blocks, m.blocksOf m.find? m.spans.length 0 m.spans = .ok blocks ∧
      g = Graph.linkBack ⟨blocks, m.spanLabels m.spans⟩ := by
  obtain ⟨bs, hbs, h⟩ := bind_eq_ok.1 h
  obtain rfl := eq_breaks_of_breakPoints hbs
  obtain ⟨blocks, hblocks, h⟩ := bind_eq_ok.1 h
  cases h
  exact ⟨blocks, hblocks, rfl⟩

/-- A graph has one block for each span. -/
theorem length_of_graph (h : m.graph = .ok g) :
    g.blocks.length = m.spans.length := by
  obtain ⟨blocks, hblocks, rfl⟩ := exists_blocksOf_of_graph h
  rw [Graph.length_linkBack, length_of_blocksOf hblocks]

/-- The block at a label is the one found by its span. -/
theorem blockAt?_of_graph (h : m.graph = .ok g) (l : Label) :
    g.blockAt? l = m.find? l := by
  obtain ⟨blocks, _, rfl⟩ := exists_blocksOf_of_graph h
  rfl

/-- The block of a part. -/
theorem block_of_graph (h : m.graph = .ok g) {n : Nat} {s : Span}
    (hs : m.spans[n]? = some s) :
    ∃ targets preds, (m.instr s.breakPoint).destinations.map m.find? =
      targets.map some ∧ g.block n =
        { id := n, breakPoint := s.breakPoint, start := s.start, stop := s.stop,
          exit := exitTo (m.instr s.breakPoint)
            (if n + 1 < m.spans.length then some (n + 1) else none) targets,
          entry := m.entryOf m.find? n, preds } := by
  obtain ⟨blocks, hblocks, rfl⟩ := exists_blocksOf_of_graph h
  obtain ⟨targets, htargets, hget⟩ := getElem?_of_blocksOf hblocks hs
  obtain ⟨preds, hlinked⟩ :=
    Graph.getElem?_linkBack (g := ⟨blocks, m.spanLabels m.spans⟩) hget
  refine ⟨targets, preds, map_of_locate htargets, ?_⟩
  rw [Graph.block_eq_of_getElem? hlinked]
  simp

/-- The body of a span stops as its break point says. -/
theorem stop_of_mem_cut {start : Nat} {bs : List Nat} {s : Span}
    (h : s ∈ m.cut start bs) : s.stop = m.bodyStop s.breakPoint := by
  induction bs generalizing start with
  | nil =>
    rw [cut] at h
    split at h
    · obtain rfl := List.mem_singleton.1 h
      rw [bodyStop, instr_of_length_le (Nat.le_refl _)]
      rfl
    · cases h
  | cons b bs ih =>
    rcases List.mem_cons.1 h with rfl | h
    · rfl
    · exact ih h

/-- Only a jump is built into a block that always jumps. -/
theorem control_of_isJump {i : Instr} {next : Option Nat} {targets : List Nat}
    (h : (exitTo i next targets).isJump = true) : i.control = .jump := by
  unfold exitTo at h
  split at h
  · assumption
  all_goals cases h

/-- Blocks of parts that are alike match, if their edges and entries do. -/
theorem matches_of_graph {φ f f' : Nat → Nat} (hg : m.graph = .ok g)
    (hg' : m'.graph = .ok g') {n n' : Nat} {s s' : Span}
    (hs : m.spans[n]? = some s) (hs' : m'.spans[n']? = some s')
    (hlast : (m'.instr s'.breakPoint).bare = (m.instr s.breakPoint).bare)
    (hstart : m.Level φ s.start s'.start) (hstop : m.Level φ s.stop s'.stop)
    (hexit : (g'.block n').exit.mapTargets f' = (g.block n).exit.mapTargets f)
    (hentry : (g'.block n').entry = (g.block n).entry) :
    (g.block n).Matches m m' φ f f' (g'.block n') := by
  obtain ⟨targets, preds, _, hblock⟩ := block_of_graph hg hs
  obtain ⟨targets', preds', _, hblock'⟩ := block_of_graph hg' hs'
  refine ⟨hexit, hentry, ?_, ?_, ?_, ?_, fun hjump => ?_⟩
  · rw [hblock, hblock']
  · rw [hblock, hblock']
    exact hstart
  · rw [hblock, hblock']
    exact hstop
  · rw [hblock, hblock']
    exact hlast
  · rw [hblock] at hjump ⊢
    rw [hblock']
    -- a jump at the end of a block is not run in it, so it stands where the
    -- block stops
    have hcontrol := control_of_isJump hjump
    have hcontrol' := (Instr.control_eq_of_bare hlast).trans hcontrol
    simp only [stop_of_mem_cut (List.mem_of_getElem? hs),
      stop_of_mem_cut (List.mem_of_getElem? hs'), bodyStop, hcontrol, hcontrol']
    exact hlast

/-! ### Whether there is a graph -/

/-- A part that starts after a label follows the part that the label ends. -/
theorem span_of_find? {l : Label} {t : Nat} (h : m.find? l = some t) :
    ∃ n s, t = n + 1 ∧ n + 1 < m.spans.length ∧ m.spans[n]? = some s ∧
      m.labelIndex? l = some s.breakPoint := by
  obtain ⟨n, s, rfl, hlt, hs, hlabel⟩ := span_of_lookup h
  exact ⟨n, s, rfl, hlt, hs, labelIndex?_of_label? hlabel⟩

/-- A graph is built if a part starts after each label that control may go
to. -/
theorem exists_graph_iff :
    (∃ g, m.graph = .ok g) ↔ ∀ l ∈ m.targets, ∃ t, m.find? l = some t := by
  constructor
  · rintro ⟨g, hg⟩ l hl
    obtain ⟨k, hk, hmem⟩ := mem_targets.1 hl
    have hbreak : k ∈ m.breaks :=
      mem_breaks.2 ⟨hk, ends_iff.2 (.inl (endsBlock_of_mem_destinations hmem))⟩
    obtain ⟨n, s, hs, rfl⟩ := exists_span_of_mem (m := m) 0 hbreak
    obtain ⟨targets, _, hmap, _⟩ := block_of_graph hg hs
    obtain ⟨t, _, ht⟩ :=
      List.mem_map.1 (hmap ▸ List.mem_map_of_mem (f := m.find?) hmem)
    exact ⟨t, ht.symm⟩
  · intro hfound
    obtain ⟨ds, hds, _⟩ :=
      exists_destinations (m.slice 0 m.length) fun x hx l hl => by
        obtain ⟨hk, heq⟩ := mem_slice_all_iff.1 hx
        obtain ⟨t, ht⟩ := hfound l (mem_targets.2 ⟨x.1, hk, heq ▸ hl⟩)
        obtain ⟨_, s, _, _, _, hlabel⟩ := span_of_find? ht
        exact ⟨s.breakPoint, hlabel⟩
    obtain ⟨bs, hbs⟩ : ∃ bs, m.breakPoints = .ok bs :=
      ⟨_, bind_eq_ok.2 ⟨ds, hds, rfl⟩⟩
    obtain rfl := eq_breaks_of_breakPoints hbs
    have hspans : ∀ s ∈ m.spans, ∀ l ∈ (m.instr s.breakPoint).destinations,
        ∃ t, m.find? l = some t := fun s _ l hl => by
      refine hfound l
        (mem_targets.2 ⟨s.breakPoint, Nat.lt_of_not_le fun hge => ?_, hl⟩)
      rw [instr_of_length_le hge] at hl
      cases hl
    obtain ⟨blocks, hblocks⟩ := exists_blocksOf m.spans.length 0 hspans
    exact ⟨_, bind_eq_ok.2 ⟨m.breaks, hbs, bind_eq_ok.2 ⟨blocks, hblocks, rfl⟩⟩⟩

/-- **Two methods have graphs, or both have none**, if the labels of jumps and
switches are found in both or in none. -/
theorem endsAlike_graph {R : Graph → Graph → Prop}
    (hfound : (∀ l ∈ m.targets, ∃ t, m.find? l = some t) ↔
      ∀ l ∈ m'.targets, ∃ t, m'.find? l = some t)
    (h : ∀ g g', m.graph = .ok g → m'.graph = .ok g' → R g g') :
    EndsAlike R m.graph m'.graph := by
  rw [← exists_graph_iff, ← exists_graph_iff] at hfound
  cases hg : m.graph with
  | ok g =>
    obtain ⟨g', hg'⟩ := hfound.1 ⟨g, hg⟩
    rw [hg']
    exact .ok (h g g' hg hg')
  | error e =>
    cases hg' : m'.graph with
    | ok g' =>
      obtain ⟨g, hok⟩ := hfound.2 ⟨g', hg'⟩
      rw [hg] at hok
      cases hok
    | error e' =>
      exact .error ((kind_of_graph hg).trans (kind_of_graph hg').symm)

end Method

end Decompiler
