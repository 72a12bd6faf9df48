import Decompiler.Proofs.Graph.Tidy

/-!
# Call code always has a tidy graph

Cutting code into blocks fails only for want of a label.  If every jump goes to
a label that is placed, with code that does something behind it, there is a
graph; and the blocks of call code can always be taken apart where their tests
start.

* `Method.Resolved`: the labels of all jumps are placed.
* `exists_tidied`: call code with such labels has a tidy graph.
-/

namespace Decompiler

variable {m : Method}

namespace Method

/-- Every label that control may go to is placed before code that does
something. -/
def Resolved (m : Method) : Prop :=
  ∀ k < m.length, ∀ l ∈ (m.instr k).destinations,
    ∃ t, m.labelIndex? l = some t ∧ m.acts t m.length = true

/-- Labels that have a place are located. -/
theorem exists_locate {find : Label → Option Nat} (index : Nat)
    {ls : List Label} (h : ∀ l ∈ ls, ∃ t, find l = some t) :
    ∃ ts, locate find index ls = .ok ts ∧
      ∀ l ∈ ls, ∀ t, find l = some t → t ∈ ts := by
  induction ls with
  | nil => exact ⟨[], rfl, by simp⟩
  | cons l ls ih =>
    obtain ⟨t, ht⟩ := h l List.mem_cons_self
    obtain ⟨ts, hts, hmem⟩ := ih fun l hl => h l (List.mem_cons_of_mem _ hl)
    refine ⟨t :: ts, by rw [locate, ht, hts]; rfl, fun l' hl' t' ht' => ?_⟩
    rcases List.mem_cons.1 hl' with rfl | hl'
    · rw [ht] at ht'
      cases ht'
      exact List.mem_cons_self
    · exact List.mem_cons_of_mem _ (hmem l' hl' t' ht')

/-- The destinations of code are found if their labels have a place. -/
theorem exists_destinations (xs : List (Nat × Instr))
    (h : ∀ x ∈ xs, ∀ l ∈ x.2.destinations, ∃ t, m.labelIndex? l = some t) :
    ∃ ds, m.destinations xs = .ok ds ∧
      ∀ x ∈ xs, ∀ l ∈ x.2.destinations, ∀ t, m.labelIndex? l = some t →
        t ∈ ds := by
  induction xs with
  | nil => exact ⟨[], rfl, by simp⟩
  | cons x xs ih =>
    obtain ⟨here, hhere, hin⟩ := exists_locate x.1 (h x List.mem_cons_self)
    obtain ⟨others, hothers, hins⟩ :=
      ih fun y hy => h y (List.mem_cons_of_mem _ hy)
    refine ⟨here ++ others,
      bind_eq_ok.2 ⟨here, hhere, bind_eq_ok.2 ⟨others, hothers, rfl⟩⟩,
      fun y hy l hl t ht => ?_⟩
    rcases List.mem_cons.1 hy with rfl | hy
    · exact List.mem_append_left _ (hin l hl t ht)
    · exact List.mem_append_right _ (hins y hy l hl t ht)

/-- Each break is the break point of a span. -/
theorem exists_span_of_mem (start : Nat) {b : Nat} {bs : List Nat}
    (h : b ∈ bs) :
    ∃ (n : Nat) (s : Span), (m.cut start bs)[n]? = some s ∧
      s.breakPoint = b := by
  induction bs generalizing start with
  | nil => cases h
  | cons c bs ih =>
    rcases List.mem_cons.1 h with rfl | h
    · exact ⟨0, _, rfl, rfl⟩
    · obtain ⟨n, s, hs, hb⟩ := ih (c + 1) h
      exact ⟨n + 1, s, hs, hb⟩

/-- Spans are made into blocks if the labels that they jump to have a place. -/
theorem exists_blocksOf {find : Label → Option Nat} (count id : Nat)
    {spans : List Span}
    (h : ∀ s ∈ spans, ∀ l ∈ (m.instr s.breakPoint).destinations, ∃ t,
      find l = some t) :
    ∃ blocks, m.blocksOf find count id spans = .ok blocks := by
  induction spans generalizing id with
  | nil => exact ⟨[], rfl⟩
  | cons s spans ih =>
    obtain ⟨targets, htargets, _⟩ :=
      exists_locate s.breakPoint (h s List.mem_cons_self)
    obtain ⟨rest, hrest⟩ :=
      ih (id + 1) fun s hs => h s (List.mem_cons_of_mem _ hs)
    exact ⟨_, bind_eq_ok.2 ⟨targets, htargets, bind_eq_ok.2 ⟨rest, hrest, rfl⟩⟩⟩

/-- The label at a break point with code behind it has a block. -/
theorem exists_lookup_spanLabels {ends : Nat → Bool} {bs : List Nat} {l : Label}
    {t : Nat} (hbs : m.BreaksFrom ends 0 bs) (hlabel : m.labelIndex? l = some t)
    (ht : t ∈ bs) (hacts : m.acts t m.length = true) :
    ∃ id, (m.spanLabels (m.cut 0 bs)).lookup l = some id := by
  obtain ⟨n, s, hs, rfl⟩ := exists_span_of_mem (m := m) 0 ht
  have hfits := spanFits_of_cut hbs (Nat.zero_le _) (.inl rfl) hs
  have hinstr := label?_instr_of_labelIndex? hlabel
  have hlt : n + 1 < (m.cut 0 bs).length := by
    refine Nat.lt_of_not_le fun hge => ?_
    have hlast := hfits.last (List.getElem?_eq_none hge)
    have hhere : m.acts s.breakPoint (s.breakPoint + 1) = false := by
      refine acts_eq_false_iff.2 fun k hk hlt _ => ?_
      obtain rfl : k = s.breakPoint := by omega
      revert hinstr
      cases m.instr s.breakPoint <;> intro hinstr <;> first | rfl | cases hinstr
    rw [acts_trans hhere hlast] at hacts
    cases hacts
  have hmem : (l, n + 1) ∈ m.spanLabels (m.cut 0 bs) := by
    refine List.mem_filterMap.2 ⟨(s, n), List.mem_zipIdx_iff_getElem?.2 hs, ?_⟩
    simp only [hinstr, if_pos hlt]
  exact Option.isSome_iff_exists.1
    (List.lookup_isSome_iff.2 ⟨(l, n + 1), hmem, beq_self_eq_true l⟩)

/-- The slice of a whole method has all its instructions. -/
theorem mem_slice_all_iff {x : Nat × Instr} :
    x ∈ m.slice 0 m.length ↔ x.1 < m.length ∧ x.2 = m.instr x.1 := by
  have hall : (m.instrs.take m.length).drop 0 = m.instrs := by
    rw [List.drop_zero, length, List.take_length]
  obtain ⟨k, i⟩ := x
  simp only [slice, hall, List.mem_map, Prod.mk.injEq, Prod.exists]
  constructor
  · rintro ⟨i', k', hmem, rfl, rfl⟩
    have hget := List.mk_mem_zipIdx_iff_getElem?.1 hmem
    obtain ⟨hlt, hi⟩ := List.getElem?_eq_some_iff.1 hget
    exact ⟨hlt, by rw [instr, List.getD_eq_getElem?_getD, hget, Option.getD_some]⟩
  · rintro ⟨hlt, rfl⟩
    refine ⟨_, k, List.mk_mem_zipIdx_iff_getElem?.2 ?_, rfl, rfl⟩
    have hlen : k < m.instrs.length := hlt
    rw [instr, List.getD_eq_getElem?_getD, List.getElem?_eq_getElem hlen,
      Option.getD_some]

/-- Code whose labels are placed has a graph. -/
theorem exists_graph (h : m.Resolved) : ∃ g, m.graph = .ok g := by
  obtain ⟨ds, hds, hin⟩ :=
    exists_destinations (m.slice 0 m.length) fun x hx l hl => by
      obtain ⟨hk, heq⟩ := mem_slice_all_iff.1 hx
      obtain ⟨t, ht, _⟩ := h x.1 hk l (heq ▸ hl)
      exact ⟨t, ht⟩
  obtain ⟨bs, hbs, hbreak⟩ : ∃ bs, m.breakPoints = .ok bs ∧ ∀ t < m.length,
      t ∈ ds → t ∈ bs := by
    refine ⟨_, bind_eq_ok.2 ⟨ds, hds, rfl⟩, fun t hlt ht => ?_⟩
    refine List.mem_filter.2 ⟨List.mem_range.2 hlt, ?_⟩
    rw [List.contains_iff_mem.2 ht, Bool.or_true, Bool.true_or]
  obtain ⟨ends, hbreaks, _⟩ := breaksFrom_of_breakPoints hbs
  have hfind : ∀ s ∈ m.cut 0 bs, ∀ l ∈ (m.instr s.breakPoint).destinations,
      ∃ id, (m.spanLabels (m.cut 0 bs)).lookup l = some id := by
    intro s _ l hl
    have hlt : s.breakPoint < m.length := by
      refine Nat.lt_of_not_le fun hge => ?_
      rw [instr_of_length_le hge] at hl
      cases hl
    obtain ⟨t, ht, hacts⟩ := h s.breakPoint hlt l hl
    have hmem :=
      hin (s.breakPoint, _) (mem_slice_all_iff.2 ⟨hlt, rfl⟩) l hl t ht
    have hbound : t < m.length := lt_of_acts hacts
    exact exists_lookup_spanLabels hbreaks ht (hbreak t hbound hmem) hacts
  obtain ⟨blocks, hblocks⟩ := exists_blocksOf (m.cut 0 bs).length 0 hfind
  exact ⟨_, bind_eq_ok.2 ⟨bs, hbs, bind_eq_ok.2 ⟨blocks, hblocks, rfl⟩⟩⟩

end Method

/-! ### Tidying -/

/-- Where a block of call code is to be split can be told. -/
theorem exists_splitPoint? {g : Graph} {b : Block} (hcut : Cut m g b) :
    ∃ k, b.splitPoint? m = .ok k := by
  cases hcut with
  | falls exit => exact ⟨none, by simp only [Block.splitPoint?, exit]⟩
  | returns exit => exact ⟨none, by simp only [Block.splitPoint?, exit]⟩
  | jumps exit => exact ⟨some b.stop, by simp only [Block.splitPoint?, exit]⟩
  | branches exit stop le _ call answers jump _ breakPoint =>
    exact ⟨_, splitPoint?_of_test exit stop le call answers jump breakPoint⟩

/-- The blocks of a sliced graph can be isolated. -/
theorem exists_isolateAll {g : Graph} {dropped ids : List Nat}
    (h : Sliced m g dropped)
    (hids : ∀ id ∈ ids, id < g.blocks.length ∧ id ∉ dropped)
    (hlean : Leaned m g dropped ids) : ∃ g', g.isolateAll m ids = .ok g' := by
  induction ids generalizing g with
  | nil => exact ⟨g, rfl⟩
  | cons id ids ih =>
    obtain ⟨hid, hlive⟩ := hids id List.mem_cons_self
    obtain ⟨k, hk⟩ := exists_splitPoint? (h.wellCut id hid)
    obtain ⟨g₁, hfirst⟩ : ∃ g₁, g.isolate m id = .ok g₁ := by
      rw [Graph.isolate, hk]
      cases k with
      | none => exact ⟨_, rfl⟩
      | some k => exact ⟨_, rfl⟩
    obtain ⟨hsliced, hleaned, hlen⟩ := sliced_isolate h hid hlive hlean hfirst
    obtain ⟨g', hg'⟩ := ih hsliced (fun n hn => by
      obtain ⟨hlt, hlive⟩ := hids n (List.mem_cons_of_mem _ hn)
      exact ⟨Nat.lt_of_lt_of_le hlt hlen, hlive⟩) hleaned
    exact ⟨g', bind_eq_ok.2 ⟨g₁, hfirst, hg'⟩⟩

/-- **Totality.**  Call code whose labels are placed has a tidy graph. -/
theorem exists_tidied (hcode : isCallCode m.instrs = true)
    (hranges : m.ranges = []) (hresolved : m.Resolved) : ∃ built tidy,
      m.graph = .ok built ∧ built.tidy m = .ok tidy ∧ Tidied m tidy := by
  obtain ⟨built, hbuilt⟩ := Method.exists_graph hresolved
  have h := built_of_graph hcode hranges hbuilt
  obtain ⟨hids, hlean⟩ := leaned_start h rfl
  obtain ⟨isolated, hisolated⟩ := exists_isolateAll (sliced_bypass h) hids hlean
  obtain ⟨tidy, htidy⟩ : ∃ tidy, built.tidy m = .ok tidy :=
    ⟨_, bind_eq_ok.2 ⟨isolated, hisolated, rfl⟩⟩
  exact ⟨built, tidy, hbuilt, htidy, tidied_of_tidy hcode hranges hbuilt htidy⟩

end Decompiler
