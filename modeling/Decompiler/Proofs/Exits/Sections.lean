import Decompiler.Proofs.Exits.Arms

/-!
# The edges out of the blocks of a list

Taking a list of blocks apart deals with all of its blocks, whatever they are: a
block that ends up in a section inside others is dealt with there, and what a
layout leaves out is told by `Work.Skips`.

* `deals_tryStatement`, `deals_switch`: statements with parts.
* `deals_regionSection`: regions, with the regions inside them folded.
* `deals_sections`: lists of blocks, to any depth.
-/

namespace Decompiler

variable {ctx : Context} {inner : Structurer} {list region ids : List Nat}
    {first i id : Nat}
  {rest : List Nat} {after : Option Nat} {s : Section} {w w₁ w' : Told}

/-! ### Statements with parts -/

/-- A part of a list is taken apart, and control goes on behind it. -/
theorem deals_part (hinner : StructurerDeals inner) (hw : w.Consistent)
    (hasc : list.Pairwise (· < ·)) {start stop k : Nat} {body : List Section}
    (h : (inner ((list.take stop).drop start) (list[k]?.or after)).told w =
      .ok (body, w')) :
    Deals list after ((list.take stop).drop start) w w' :=
  (hinner _ _ _ _ _ hw (pairwise_slice hasc start stop) h).within
    (.part (slice_subset _ _ _) k)

/-- The blocks of all handlers are dealt with. -/
theorem deals_handlers (hinner : StructurerDeals inner) (hw : w.Consistent)
    (hasc : list.Pairwise (· < ·)) {k : Nat} {spans : List HandlerSpan}
    {hs : List (Handler Section)}
    (h : (Partition.handlers inner list (list[k]?.or after) spans).told w =
      .ok (hs, w')) :
    ∃ ids, ids ⊆ list ∧ (∀ x ∈ spans, (list.take x.stop).drop x.start ⊆ ids) ∧
      Deals list after ids w w' := by
  induction spans generalizing w hs with
  | nil =>
    obtain ⟨rfl, rfl⟩ := Partition.told_pure.1 h
    exact ⟨[], List.nil_subset _, List.forall_mem_nil _, .nil (.refl w')⟩
  | cons span spans ih =>
    obtain ⟨body, others, w₁, rfl, hbody, hothers⟩ :=
      Partition.told_handlers_cons h
    have hhere := deals_part hinner hw hasc hbody
    obtain ⟨ids, hids, hspans, hdeals⟩ :=
      ih (hhere.changes.work.consistent hw) hothers
    refine ⟨_, List.append_subset.2 ⟨slice_subset _ _ _, hids⟩, fun x hx =>
      ?_, hhere.trans hdeals⟩
    rcases List.mem_cons.1 hx with rfl | hx
    · exact List.subset_append_left _ _
    · exact List.Subset.trans (hspans x hx) (List.subset_append_right _ _)

/-- The blocks of all cases are dealt with. -/
theorem deals_cases (hinner : StructurerDeals inner) (hw : w.Consistent)
    (hasc : list.Pairwise (· < ·)) {k : Nat} {spans : List CaseSpan}
    {cs : List (Case Section)}
    (h : (Partition.cases inner list (list[k]?.or after) spans).told w =
      .ok (cs, w')) :
    ∃ ids, ids ⊆ list ∧ (∀ c ∈ spans, (list.take c.stop).drop c.start ⊆ ids) ∧
      Deals list after ids w w' := by
  induction spans generalizing w cs with
  | nil =>
    obtain ⟨rfl, rfl⟩ := Partition.told_pure.1 h
    exact ⟨[], List.nil_subset _, List.forall_mem_nil _, .nil (.refl w')⟩
  | cons span spans ih =>
    obtain ⟨body, others, w₁, rfl, hhere, hothers⟩ :=
      Partition.told_cases_cons h
    have hhere : Deals list after ((list.take span.stop).drop span.start) w
        w₁ := by
      rcases hhere with ⟨_, hbody⟩ | ⟨hempty, _, rfl⟩
      · exact deals_part hinner hw hasc hbody
      · rw [List.drop_of_length_le (by rw [List.length_take]; omega)]
        exact .nil (.refl w₁)
    obtain ⟨ids, hids, hspans, hdeals⟩ :=
      ih (hhere.changes.work.consistent hw) hothers
    refine ⟨_, List.append_subset.2 ⟨slice_subset _ _ _, hids⟩, fun x hx =>
      ?_, hhere.trans hdeals⟩
    rcases List.mem_cons.1 hx with rfl | hx
    · exact List.subset_append_left _ _
    · exact List.Subset.trans (hspans x hx) (List.subset_append_right _ _)

/-- A step that deals with all blocks from one position of a list up to another,
and maybe with blocks in front of them. -/
def DealsFrom (list : List Nat) (after : Option Nat) (i next : Nat)
    (w w' : Told) : Prop :=
  ∃ ids, ids ⊆ list ∧ (list.take next).drop i ⊆ ids ∧ Deals list after ids w w'

/-- Blocks that are dealt with up to a position are so from the position on
where one started. -/
theorem Deals.dealsFrom (h : Deals list after ids w w') (hids : ids ⊆ list)
    {next : Nat} (hall : ∀ p x, i ≤ p → p < next → list[p]? = some x →
      x ∈ ids ∨ Dealt (w'.faithful = true) list after w.toWork x) :
      DealsFrom list after i next w w' := by
  refine ⟨_, List.append_subset.2 ⟨hids, slice_subset list i next⟩,
    List.subset_append_right _ _,
    h.of_subset (List.subset_append_left _ _) fun x hx => ?_⟩
  rcases List.mem_append.1 hx with hx | hx
  · exact .inl hx
  · obtain ⟨p, hfrom, hbefore, hp⟩ := mem_slice_iff.1 hx
    exact hall p x hfrom hbefore hp

/-- What is dealt with up to a stop is so in the list the stop is in. -/
theorem DealsFrom.within {next stop : Nat}
    (h : DealsFrom list (some next) i stop w w') (hnext : next ∈ list) :
    DealsFrom list after i stop w w' := by
  obtain ⟨ids, hids, hslice, hdeals⟩ := h
  exact ⟨ids, hids, hslice,
    hdeals.within (.some after (List.Subset.refl _) hnext)⟩

/-- A try statement deals with the blocks up to its join. -/
theorem deals_tryStatement (hinner : StructurerDeals inner) (hw : w.Consistent)
    (hasc : list.Pairwise (· < ·)) (hid : list[i]? = some id) {t : TryGroup}
    {plan : TryPlan} (hfound : Partition.PlanFound list id w (some (t, plan)) w)
    (h : (Partition.tryStatement inner list i t plan after).told w =
      .ok (s, w')) :
    i < plan.join ∧ DealsFrom list after i plan.join w w' := by
  cases hfound with
  | some pending starts ends plans =>
  obtain ⟨body, hs, w₁, rfl, hbody, hhandlers⟩ := Partition.told_tryStatement h
  have hlays := Graph.laysOut_of_tryPlan? plans
  have huse : Told.Changes [] w { w with pending := w.pending.erase t } :=
    ⟨.use w.toWork t, fun h => h⟩
  have hpart :=
    (Deals.nil huse).trans
      (deals_part hinner (huse.work.consistent hw) hasc hbody)
  obtain ⟨ids, hids, hspans, hdeals⟩ :=
    deals_handlers hinner (hpart.changes.work.consistent hw) hasc hhandlers
  have hall := hpart.trans hdeals
  have hjoin : i < plan.join := by
    refine Nat.lt_trans (lt_idxOf_of_lt (hasc.imp Nat.le_of_lt) hid ?_)
      (Graph.stop_lt_join_of_laysOut hlays)
    exact starts ▸ hw.proper t pending
  refine ⟨hjoin,
    hall.dealsFrom (List.append_subset.2 ⟨slice_subset _ _ _, hids⟩)
    fun p x hfrom hbefore hp => ?_⟩
  by_cases hout : TryPlan.holding p (plan.runs i) = []
  · have hleft : w.LeavesOut list x :=
      .tryStatement pending (starts ▸ hid) plans hp hfrom hbefore hout
    exact .inr (.skipped ⟨[], w.toWork, list, .refl _, List.Subset.refl _, hleft⟩)
  · obtain ⟨r, hr, hstart, hstop⟩ := TryPlan.exists_mem_of_holding_ne_nil hout
    refine .inl (List.mem_append.2 ?_)
    rcases List.mem_cons.1 hr with rfl | hr
    · exact .inl (mem_slice_iff.2 ⟨p, hfrom, hstop, hp⟩)
    · obtain ⟨span, hspan, rfl⟩ := List.mem_map.1 hr
      exact .inr (hspans span hspan (mem_slice_iff.2 ⟨p, hstart, hstop, hp⟩))

/-- A switch deals with the blocks up to its join. -/
theorem deals_switch (hinner : StructurerDeals inner) (hw : w.Consistent)
    (hasc : list.Pairwise (· < ·)) (hid : list[i]? = some id)
    (hselects : (w.graph.exit id).isSwitch = true) (hdrops : w.Drops w₁)
    (h : (Partition.switch inner list id (w.graph.switchPlan list i) after).told
      w₁ = .ok (s, w')) :
    DealsFrom list after i (max (w.graph.switchPlan list i).join (i + 1)) w
      w' := by
  obtain ⟨cs, rfl, hcs⟩ := Partition.told_switch h
  have hdropped := Told.Changes.of_drops hdrops []
  obtain ⟨ids, hids, hspans, hdeals⟩ :=
    deals_cases hinner (hdropped.work.consistent hw) hasc hcs
  refine ((Deals.nil hdropped).trans hdeals).dealsFrom
    hids fun p x hfrom hbefore hp => ?_
  rcases Nat.eq_or_lt_of_le hfrom with rfl | hbehind
  · cases hid.symm.trans hp
    exact .inr (.selects hselects)
  · by_cases hout : ∃ c ∈ (w.graph.switchPlan list i).cases, c.start ≤ p ∧
      p < c.stop
    · obtain ⟨c, hc, hstart, hstop⟩ := hout
      exact .inl (hspans c hc (mem_slice_iff.2 ⟨p, hstart, hstop, hp⟩))
    · have hleft : w.LeavesOut list x :=
        .switch hid hselects hp hbehind (by omega) fun c hc hholds =>
          hout ⟨c, hc, hholds⟩
      exact .inr (.skipped ⟨[], w.toWork, list, .refl _, List.Subset.refl _, hleft⟩)

/-! ### Regions -/

/-- The ways to structure the regions inside a region that deal with their
blocks. -/
def RegionsDeal (nested : Partition.RegionStructurer) : Prop :=
  ∀ (isLoop : Bool) (list : List Nat) (after : Option Nat) (w : Told)
    (s : Section) (w' : Told),
    w.Consistent → list.Pairwise (· < ·) →
    (nested isLoop list after).told w = .ok (s, w') → Deals list after list w w'

variable {nested : Partition.RegionStructurer}

/-- The section at a position of a region deals with the blocks up to where what
comes after it starts. -/
theorem deals_nested (after : Option Nat) (hinner : StructurerDeals inner)
    (hnested : RegionsDeal nested) (hw : w.Consistent)
    (hasc : region.Pairwise (· < ·)) (hid : region[i]? = some id) {stop : Nat}
    (h : Partition.NestedFound inner nested region i id w (some (stop, s)) w') :
    DealsFrom region after i (max stop (i + 1)) w w' := by
  cases h with
  | tryStatement found there run =>
    obtain ⟨hjoin, hdeals⟩ := deals_tryStatement hinner hw hasc hid found run
    rw [Nat.max_eq_left (Nat.succ_le_of_lt hjoin)]
    exact hdeals.within (List.mem_of_getElem? there)
  | switch drops selects there run =>
    exact (deals_switch hinner hw hasc hid selects drops run).within
      (List.mem_of_getElem? there)
  | region drops lt there head run =>
    have hdropped := Told.Changes.of_drops drops []
    have hdeals := (Deals.nil hdropped).trans
      ((hnested _ _ _ _ _ _ (hdropped.work.consistent hw) (pairwise_slice hasc _ _)
        run).within
        (.some after (slice_subset _ _ _) (List.mem_of_getElem? there)))
    rw [Nat.max_eq_left (Nat.succ_le_of_lt lt)]
    exact ⟨_, slice_subset _ _ _, List.Subset.refl _, hdeals⟩

/-- Folding the regions inside a region deals with the blocks that are gone, and
those that are left stay as they are or have been dealt with. -/
theorem deals_foldNested (after : Option Nat) (hinner : StructurerDeals inner)
    (hnested : RegionsDeal nested) {fuel : Nat} {region' : List Nat}
    (hw : w.Consistent) (hasc : region.Pairwise (· < ·))
    (h : (Partition.foldNested inner nested fuel i region).told w =
      .ok (region', w')) :
    region'.Sublist region ∧ ∃ ids, ids ⊆ region ∧
      (∀ x ∈ region, x ∈ ids ∨ x ∈ region') ∧ Deals region after ids w w' := by
  induction fuel generalizing i region w with
  | zero =>
    obtain ⟨-, rfl, rfl⟩ := Partition.foldNested_zero_eq_ok h
    exact ⟨.refl _, [], List.nil_subset _, fun x hx => .inr hx, .nil (.refl w')⟩
  | succ n ih =>
    cases Partition.foldTaken_of_told h with
    | ends _ eq same =>
      subst eq same
      exact ⟨.refl _, [], List.nil_subset _, fun x hx => .inr hx,
        .nil (.refl _)⟩
    | passes drops run =>
      have hdropped := Told.Changes.of_drops drops []
      obtain ⟨hsub, ids, hids, hall, hdeals⟩ :=
        ih (hdropped.work.consistent hw) hasc run
      exact ⟨hsub, ids, hids, hall, (Deals.nil hdropped).trans hdeals⟩
    | @folds stop id s w₁ here inside hlt found rest =>
      obtain ⟨ids, hids, hslice, hdeals⟩ :=
        deals_nested after hinner hnested hw hasc here found
      rw [Nat.max_eq_left (Nat.succ_le_of_lt hlt)] at hslice
      have hmem : id ∈ ids :=
        hslice (mem_slice_iff.2 ⟨i, Nat.le_refl i, by omega, here⟩)
      have hfold : Told.Changes ids w₁
          { w₁ with graph := w₁.graph.fold id s region[stop]? } :=
        ⟨.fold w₁.toWork s region[stop]? hmem, fun h => h⟩
      have hfolded := hdeals.changed hfold
      have hleft : (region.take (i + 1) ++ region.drop stop).Sublist region :=
        take_append_drop_sublist hlt
      obtain ⟨hsub, more, hmore, hall, hrest⟩ :=
        ih (hfolded.changes.work.consistent hw) (hasc.sublist hleft) rest
      refine ⟨hsub.trans hleft, ids ++ more,
        List.append_subset.2 ⟨hids, List.Subset.trans hmore hleft.subset⟩,
        fun x hx => ?_, hfolded.trans (hrest.within (.same hleft.subset))⟩
      have hkept (hx : x ∈ region.take (i + 1) ++ region.drop stop) :
          x ∈ ids ++ more ∨ x ∈ region' :=
        (hall x hx).imp_left fun hmem => List.mem_append.2 (.inr hmem)
      rcases mem_take_or_drop hx stop with hx | hx
      · rcases mem_take_or_drop hx (i + 1) with hx | hx
        · rw [List.take_take, Nat.min_eq_left hlt] at hx
          exact hkept (List.mem_append.2 (.inl hx))
        · obtain ⟨p, hfrom, hbefore, hp⟩ := mem_slice_iff.1 hx
          exact .inl (List.mem_append.2 (.inl
            (hslice (mem_slice_iff.2 ⟨p, Nat.le_of_succ_le hfrom, hbefore, hp⟩))))
      · exact hkept (List.mem_append.2 (.inr hx))

/-- **Regions.**  A region deals with its blocks. -/
theorem deals_regionSection (hinner : StructurerDeals inner) (fuel : Nat) :
    RegionsDeal (Partition.regionSection ctx inner fuel) := by
  induction fuel with
  | zero =>
    intro isLoop list after w s w' _ _ h
    cases Partition.regionTaken_of_told h
  | succ n ih =>
    intro isLoop list after w s w' hw hasc h
    cases Partition.regionTaken_of_told h with
    | loop run => exact (loopDeals_of_loop hinner hw hasc run).deals
    | jumpEntered jump run =>
      exact (loopDeals_of_jumpEntered hinner hw hasc jump run).deals
    | branch _ fold run =>
      obtain ⟨hsub, ids, hids, hall, hdeals⟩ :=
        deals_foldNested after hinner ih hw hasc fold
      obtain ⟨_, _, _, hbranch⟩ :=
        arms_of_branch hinner (hdeals.changes.work.consistent hw)
          (hasc.sublist hsub) run
      have hboth := hdeals.trans (hbranch.within (.same hsub.subset))
      exact ⟨hboth.changes.mono (List.append_subset.2 ⟨hids, hsub.subset⟩),
        fun x hx => hboth.dealt x (List.mem_append.2 (hall x hx))⟩

/-! ### Lists -/

/-- The section at a position of a list deals with the blocks up to where what
comes after it starts. -/
theorem deals_sectionAt (hinner : StructurerDeals inner) (hw : w.Consistent)
    (hasc : list.Pairwise (· < ·)) (hid : list[i]? = some id) {next : Nat}
    (h : (Partition.sectionAt ctx inner list after i id).told w =
      .ok ((s, next), w')) :
    i < next ∧ DealsFrom list after i next w w' := by
  have hone {x : Told}
      (hdealt : Dealt (x.faithful = true) list after w.toWork id)
      (hchanges : Told.Changes [id] w x) : DealsFrom list after i (i + 1) w x := by
    refine ⟨[id],
      List.cons_subset.2 ⟨List.mem_of_getElem? hid, List.nil_subset _⟩,
      fun y hy => ?_, hchanges, List.forall_mem_singleton.2 hdealt⟩
    obtain ⟨p, hfrom, hbefore, hp⟩ := mem_slice_iff.1 hy
    obtain rfl : p = i := by omega
    exact List.mem_singleton.2 (Option.some.inj (hp.symm.trans hid))
  have hnext (n : Nat) (hn : list[i + 1]?.or after = some n) : n ∈ list ∨
      after = some n :=
    (Within.part (List.Subset.refl list) (i + 1)).next n hn
  cases Partition.sectionTaken_of_told hid h with
  | folded holds =>
    obtain ⟨next, hfalls⟩ := hw.folded id s holds
    refine ⟨Nat.lt_succ_self i,
      hone (.of_goesOn (by rw [hfalls]; rfl) (by rw [hfalls]; rfl) hnext
      fun hfaithful => (Bool.and_eq_true_iff.1 hfaithful).2) ?_⟩
    exact ⟨.unfold w.toWork (List.mem_singleton_self id),
      fun hfaithful => (Bool.and_eq_true_iff.1 hfaithful).1⟩
  | tryStatement plain found run =>
    exact deals_tryStatement hinner hw hasc hid found run
  | switch plain drops selects run =>
    exact ⟨by omega, deals_switch hinner hw hasc hid selects drops run⟩
  | region plain drops lt head run =>
    have hdropped := Told.Changes.of_drops drops []
    refine ⟨lt, _, slice_subset _ _ _, List.Subset.refl _,
      (Deals.nil hdropped).trans
      ((deals_regionSection hinner _ _ _ _ _ _ _ (hdropped.work.consistent hw)
        (pairwise_slice hasc _ _)
        run).within (.part (slice_subset _ _ _) next))⟩
  | @inline w₁ plain drops noSwitch noBranch =>
    refine ⟨Nat.lt_succ_self i, hone (.of_goesOn noBranch noSwitch hnext
      fun hfaithful => (Bool.and_eq_true_iff.1 hfaithful).2) ?_⟩
    refine (Told.Changes.of_drops drops _).trans ?_
    cases drops <;> exact .observe _ _

/-- The sections of a list from a position on. -/
theorem deals_sectionsFrom (hinner : StructurerDeals inner) {fuel : Nat}
    (hw : w.Consistent) (hasc : list.Pairwise (· < ·)) {ss : List Section}
    (h : (Partition.sectionsFrom ctx inner list after fuel i).told w =
      .ok (ss, w')) :
    ∃ ids, ids ⊆ list ∧ list.drop i ⊆ ids ∧ Deals list after ids w w' := by
  induction fuel generalizing i w ss with
  | zero =>
    obtain ⟨hnone, rfl, rfl⟩ := Partition.sectionsFrom_zero_eq_ok h
    rw [List.drop_of_length_le (List.getElem?_eq_none_iff.1 hnone)]
    exact ⟨[], List.nil_subset _, List.Subset.refl _, .nil (.refl w')⟩
  | succ n ih =>
    cases Partition.sectionsTaken_of_told h with
    | ends none _ same =>
      subst same
      rw [List.drop_of_length_le (List.getElem?_eq_none_iff.1 none)]
      exact ⟨[], List.nil_subset _, List.Subset.refl _, .nil (.refl _)⟩
    | @takes id next s others w₁ here run rest _ =>
      obtain ⟨hlt, ids, hids, hslice, hhere⟩ :=
        deals_sectionAt hinner hw hasc here run
      obtain ⟨more, hmore, hrest, hlater⟩ :=
        ih (hhere.changes.work.consistent hw) rest
      refine ⟨ids ++ more, List.append_subset.2 ⟨hids, hmore⟩, fun x hx =>
        ?_, hhere.trans hlater⟩
      obtain ⟨p, hp⟩ := List.mem_iff_getElem?.1 hx
      rw [List.getElem?_drop] at hp
      rcases Nat.lt_or_ge (i + p) next with hbefore | hbehind
      · refine List.mem_append.2
          (.inl (hslice (mem_slice_iff.2 ⟨_, ?_, hbefore, hp⟩)))
        exact Nat.le_add_right i p
      · refine List.mem_append.2
          (.inr (hrest (List.mem_of_getElem? (i := i + p - next) ?_)))
        rw [List.getElem?_drop, Nat.add_sub_cancel' hbehind, hp]

/-- **Lists of blocks.**  Taking a list apart deals with all of its blocks. -/
theorem deals_sections (depth : Nat) :
    StructurerDeals (Partition.sections ctx depth) := by
  induction depth with
  | zero =>
    intro list after w ss w' _ _ h
    cases h
  | succ n ih =>
    intro list after w ss w' hw hasc h
    obtain ⟨ids, hids, hall, hdeals⟩ :=
      deals_sectionsFrom ih hw hasc h
    exact hdeals.of_subset hids fun x hx => .inl (hall hx)

end Decompiler
