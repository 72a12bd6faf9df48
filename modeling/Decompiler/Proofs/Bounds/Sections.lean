import Decompiler.Proofs.Bounds.Regions
import Decompiler.Proofs.Catches.Groups
import Mathlib

/-!
# Taking a graph apart stays in range

A list of blocks is taken apart from its first position on, and each section
takes the position on.  A region is folded into its first block from its second
position on, and what is folded is shorter than the region.  The sections inside
a section are those of a shorter list.  So no recursion needs more fuel than the
list that it starts with has blocks, and lists nest at most as deep as there are
blocks, and one deeper for the empty list.

Only switches that lead back could break this: their cases may start in front of
the switch, and then a case is not shorter than the list.

* `InRange.nestedAt`, `InRange.foldNested`, `InRange.regionSection`: regions
  inside regions.
* `InRange.sectionAt`, `InRange.sectionsFrom`, `InRange.sections`: lists.
* `run_sections_eq_takeApart`: graphs.
-/

namespace Decompiler

variable {ctx : Context} {n bound size : Nat} {inner' inner : Structurer}
  {nested' nested : Partition.RegionStructurer} {w : Work}
  {list region : List Nat} {i id : Nat} {after : Option Nat}

/-! ## Regions inside regions -/

/-- Whether regions of at most so many blocks are structured in range.  A loop
has at least two blocks. -/
def RegionInRange (n size : Nat) (nested' nested : Partition.RegionStructurer) :
    Prop :=
  ∀ (w : Work) (isLoop : Bool) (region : List Nat) (after : Option Nat),
    w.Bounded n → InOrder n region → region.length ≤ size → 0 < region.length →
    (isLoop = true → 1 < region.length) →
    InRange n w (nested' isLoop region after) (nested isLoop region after)
      fun _ => True

/-- A run of a list that is a region. -/
theorem RegionInRange.slice (hnested : RegionInRange n size nested' nested)
    (hw : w.Bounded n) (hlist : InOrder n list) {start stop : Nat}
    (hlt : start < stop) (hstop : stop ≤ list.length)
    (hsize : stop - start ≤ size) {isLoop : Bool}
    (hloop : isLoop = true → start + 1 < stop) (after : Option Nat) :
    InRange n w (nested' isLoop ((list.take stop).drop start) after)
      (nested isLoop ((list.take stop).drop start) after) fun _ => True := by
  have hlength : ((list.take stop).drop start).length = stop - start := by
    rw [List.length_drop, List.length_take, Nat.min_eq_left hstop]
  apply hnested w isLoop _ after hw (hlist.slice start stop)
  · omega
  · omega
  · intro h
    have := hloop h
    omega

/-- What is found inside a region starts at a position and ends behind it, in
front of the end of the region. -/
def EndsInside (region : List Nat) (i : Nat) (found : Option (Nat × Section)) :
    Prop :=
  ∀ stop s, found = some (stop, s) → i < stop ∧ stop < region.length

namespace InRange

/-- A region that ends before the list does is taken apart in range if its
section is. -/
theorem before (hw : w.Bounded n) {stop : Nat} (hlt : i < stop)
    {k' k : Nat → Partition Section}
    (hk : ∀ next, stop < region.length →
      InRange n w (k' next) (k next) fun _ => True) :
    InRange n w
      (match region[stop]? with
        | some next => do return some (stop, ← k' next)
        | none => return none)
      (match region[stop]? with
        | some next => do return some (stop, ← k next)
        | none => return none) (EndsInside region i) := by
  cases hnext : region[stop]? with
  | none => exact .pure hw nofun
  | some next =>
    have hstop := (List.getElem?_eq_some_iff.1 hnext).1
    refine .bind (hk next hstop) fun s w hw _ => .pure hw ?_
    rintro stop s ⟨⟩
    exact ⟨hlt, hstop⟩

/-- A region inside a region starts behind its head and ends in front of its
end. -/
theorem nestedAt (hinner : StructurerInRange n bound inner' inner)
    (hnested : RegionInRange n size nested' nested) (hw : w.Bounded n)
    (hregion : InOrder n region) (hbound : region.length ≤ bound)
    (hsize : region.length ≤ size + 1) (hi : 0 < i)
    (hid : region[i]? = some id) :
    InRange n w (Partition.nestedAt inner' nested' region i id)
      (Partition.nestedAt inner nested region i id) (EndsInside region i) := by
  have hlt := (List.getElem?_eq_some_iff.1 hid).1
  refine .block (hw.below hregion id (List.mem_of_getElem? hid))
    (.ite (fun _ => .pure hw nofun) fun _ => ?_)
  refine .bind (tryPlan? hw hregion hid) fun found w hw hfound => ?_
  have hbelow := hw.below hregion
  cases found with
  | some found =>
    obtain ⟨t, plan⟩ := found
    have hplan := hfound t plan rfl
    exact before hw hplan.join fun next _ =>
      tryStatement hinner hw hregion hbound hplan
  | none =>
    refine .ite (fun _ => ?_) fun _ => ?_
    · have hplan := SwitchPlan.inside_of_forward hregion.ascends hid
        (hw.forward id (hbelow id (List.mem_of_getElem? hid)))
      refine .ask (Checked.switchPlan_eq hbelow hlt) rfl ?_
      exact before hw hplan.join fun next _ =>
        switch hinner hw hregion hbound hplan
    refine .ask (Checked.lastBackEdge?_eq hbelow hlt) rfl ?_
    cases hlast : w.graph.lastBackEdge? region i with
    | some last =>
      have hbehind := Graph.lt_of_lastBackEdge? hlast
      refine before hw (Nat.lt_succ_of_lt hbehind) fun next hstop => ?_
      exact .slice (by omega) (Nat.le_of_lt hstop)
        (hnested.slice hw hregion (by omega) (Nat.le_of_lt hstop)
          (by omega) (fun _ => by omega) (some next))
    | none =>
      refine .ask (Checked.jumpsIntoTest_eq hbelow hlt) rfl
        (.ite (fun _ => ?_) fun _ => .pure hw nofun)
      refine .ask (Checked.extent?_eq hbelow hlt) rfl ?_
      cases hextent : (w.graph.extent? region i).filter (i < ·) with
      | none => exact .pure hw nofun
      | some stop =>
        have hbehind :=
          of_decide_eq_true (Option.filter_eq_some_iff.1 hextent).2
        refine before hw hbehind fun next hstop => ?_
        exact .slice (Nat.le_of_lt hbehind) (Nat.le_of_lt hstop)
          (hnested.slice hw hregion hbehind (Nat.le_of_lt hstop) (by omega)
            (fun h => by cases h) (some next))

/-- Folding the regions inside a region leaves its head and takes only blocks
away. -/
theorem foldNested (hinner : StructurerInRange n bound inner' inner)
    (hnested : RegionInRange n size nested' nested) {fuel : Nat}
    (hw : w.Bounded n) (hregion : InOrder n region)
    (hbound : region.length ≤ bound) (hsize : region.length ≤ size + 1)
    (hi : 0 < i) (hpos : 0 < region.length) (hfuel : region.length ≤ i + fuel) :
    InRange n w (Partition.foldNested inner' nested' fuel i region)
      (Partition.foldNested inner nested fuel i region)
      fun left => InOrder n left ∧ 0 < left.length ∧
        left.length ≤ region.length := by
  -- each step takes the position on, and what is left does not grow
  induction fuel generalizing w i region with
  | zero =>
    have hend : region[i]? = none := List.getElem?_eq_none hfuel
    refine .ask (congrArg some hend) hend ?_
    exact .pure hw ⟨hregion, hpos, Nat.le_refl _⟩
  | succ fuel ih =>
    refine .ask rfl rfl ?_
    cases hid : region[i]? with
    | none => exact .pure hw ⟨hregion, hpos, Nat.le_refl _⟩
    | some id =>
      refine .bind (nestedAt hinner hnested hw hregion hbound hsize hi hid)
        fun found w hw hfound => ?_
      cases found with
      | none =>
        exact ih hw hregion hbound hsize (Nat.succ_pos i) hpos (by omega)
      | some found =>
        obtain ⟨stop, s⟩ := found
        obtain ⟨hlt, hstop⟩ := hfound stop s rfl
        have hleft : (region.take (i + 1) ++ region.drop stop).Sublist region :=
          take_append_drop_sublist hlt
        have hlength : (region.take (i + 1) ++ region.drop stop).length =
            i + 1 + (region.length - stop) := by
          rw [List.length_append, List.length_take, List.length_drop,
            Nat.min_eq_left (by omega)]
        dsimp only
        rw [if_neg (Nat.not_le.2 hlt), if_neg (Nat.not_le.2 hlt)]
        refine .bind (.change (hw.below hregion) (hw.fold id s region[stop]?))
          fun _ w hw _ => ?_
        refine .front (by omega) (.back (Nat.le_of_lt hstop) ?_)
        refine (ih hw (hregion.sublist hleft) (by omega) (by omega)
          (Nat.succ_pos i) (by omega) (by omega)).weaken ?_
        rintro left ⟨horder, hleftpos, hle⟩
        exact ⟨horder, hleftpos, Nat.le_trans hle hleft.length_le⟩

/-- A region needs no more fuel than it has blocks. -/
theorem regionSection (ctx : Context)
    (hinner : StructurerInRange n bound inner' inner) (fuel : Nat)
    (hfuel : fuel ≤ bound) :
    RegionInRange n fuel (Partition.regionSection ctx inner' fuel)
      (Partition.regionSection ctx inner fuel) := by
  induction fuel with
  | zero =>
    intro w isLoop region after _ _ hsize hpos _
    exact absurd hpos (Nat.not_lt.2 hsize)
  | succ fuel ih =>
    intro w isLoop region after hw hregion hsize hpos hloop
    cases region with
    | nil => exact absurd hpos (Nat.lt_irrefl 0)
    | cons first rest =>
      have hbound := Nat.le_trans hsize hfuel
      unfold Partition.regionSection
      refine .ite (fun h => ?_) fun _ => ?_
      · refine loop hinner hw hregion hbound fun hnil => ?_
        have := hloop h
        rw [hnil] at this
        exact absurd this (Nat.lt_irrefl 1)
      · -- a nested region leaves the head out, so there is fuel for it
        refine .exit (hw.below hregion first List.mem_cons_self) ?_
        refine .ite (fun _ => jumpEntered hinner hw hregion hbound) fun _ => ?_
        refine .bind (foldNested hinner (ih (Nat.le_of_succ_le hfuel)) hw
          hregion hbound hsize Nat.one_pos hpos (by simp [Nat.add_comm])) ?_
        rintro left w hw ⟨horder, hleft, hle⟩
        cases left with
        | nil => exact absurd hleft (Nat.lt_irrefl 0)
        | cons first' rest' =>
          exact branch hinner hw horder (Nat.le_trans hle hbound)

/-! ## Lists -/

/-- A section of a list takes up at least one position. -/
theorem sectionAt (hinner : StructurerInRange n list.length inner' inner)
    (hw : w.Bounded n) (hlist : InOrder n list) (hid : list[i]? = some id) :
    InRange n w (Partition.sectionAt ctx inner' list after i id)
      (Partition.sectionAt ctx inner list after i id)
      fun (_, next) => i < next := by
  have hlt := (List.getElem?_eq_some_iff.1 hid).1
  have hmem := List.mem_of_getElem? hid
  have halone {w : Work} (hw : w.Bounded n) : InRange n w
      (do return (← Partition.single id (list[i + 1]?.or after), i + 1))
      (do return (← Partition.single id (list[i + 1]?.or after), i + 1))
      fun (_, next) => i < next :=
    .bind (.single hw (hw.below hlist id hmem) _) fun s w hw _ =>
      .pure hw (Nat.lt_succ_self i)
  have hregion (isLoop : Bool) {w : Work} (hw : w.Bounded n) {stop : Nat}
      (hlt : i < stop) (hstop : stop ≤ list.length)
      (hloop : isLoop = true → i + 1 < stop) :
      InRange n w
      (do
        let s ← Partition.regionSection ctx inner' (stop - i) isLoop
          (← Partition.slice list i stop) (list[stop]?.or after)
        return (s, stop))
      (do
        let s ← Partition.regionSection ctx inner (stop - i) isLoop
          (← Partition.slice list i stop) (list[stop]?.or after)
        return (s, stop)) fun (_, next) => i < next :=
    .slice (Nat.le_of_lt hlt) hstop
      (.bind ((regionSection ctx hinner (stop - i) (by omega)).slice hw hlist
        hlt hstop (Nat.le_refl _) hloop _) fun s w hw _ => .pure hw hlt)
  refine .block (hw.below hlist id hmem)
    (.ite (fun _ => halone hw) fun _ => ?_)
  refine .bind (tryPlan? hw hlist hid) fun found w hw hfound => ?_
  have hbelow := hw.below hlist
  cases found with
  | some found =>
    obtain ⟨t, plan⟩ := found
    have hplan := hfound t plan rfl
    exact .bind (tryStatement hinner hw hlist (Nat.le_refl _) hplan)
      fun s w hw _ => .pure hw hplan.join
  | none =>
    refine .ite (fun _ => ?_) fun _ => ?_
    · have hplan := SwitchPlan.inside_of_forward hlist.ascends hid
        (hw.forward id (hbelow id hmem))
      refine .ask (Checked.switchPlan_eq hbelow hlt) rfl ?_
      exact .bind (switch hinner hw hlist (Nat.le_refl _) hplan)
        fun s w hw _ =>
          .pure hw (Nat.lt_of_lt_of_le hplan.join (Nat.le_max_left _ _))
    refine .ask (Checked.lastBackEdge?_eq hbelow hlt) rfl ?_
    cases hlast : w.graph.lastBackEdge? list i with
    | some last =>
      have hbehind := Graph.lt_of_lastBackEdge? hlast
      exact hregion true hw (Nat.lt_succ_of_lt hbehind)
        (Graph.lastBackEdge?_lt_length hlast) fun _ => Nat.succ_lt_succ hbehind
    | none =>
      refine .ask (Checked.jumpsIntoTest_eq hbelow hlt) rfl
        (.ite (fun _ => ?_) fun _ => halone hw)
      refine .ask (Checked.extent?_eq hbelow hlt) rfl ?_
      cases hextent : (w.graph.extent? list i).filter (i < ·) with
      | none => exact .irreducible (hbelow id hmem)
      | some stop =>
        obtain ⟨hstop, hbehind⟩ := Option.filter_eq_some_iff.1 hextent
        exact hregion false hw (of_decide_eq_true hbehind)
          (Graph.extent?_le_length hstop) fun h => by cases h

/-- The sections of a list need no more fuel than there are blocks in it. -/
theorem sectionsFrom (hinner : StructurerInRange n list.length inner' inner)
    {fuel : Nat} (hw : w.Bounded n) (hlist : InOrder n list)
    (hfuel : list.length ≤ i + fuel) :
    InRange n w (Partition.sectionsFrom ctx inner' list after fuel i)
      (Partition.sectionsFrom ctx inner list after fuel i) fun _ => True := by
  induction fuel generalizing w i with
  | zero =>
    have hend : list[i]? = none := List.getElem?_eq_none hfuel
    exact .ask (congrArg some hend) hend (.pure hw trivial)
  | succ fuel ih =>
    refine .ask rfl rfl ?_
    cases hid : list[i]? with
    | none => exact .pure hw trivial
    | some id =>
      refine .bind (sectionAt hinner hw hlist hid) ?_
      rintro ⟨s, next⟩ w hw hnext
      exact .bind (ih hw (by dsimp only at hnext; omega)) fun ss w hw _ =>
        .pure hw trivial

/-- Lists nest no deeper than they are long: the runs inside the sections of a
list are shorter than the list.  Without checks any greater depth does as
well. -/
theorem sections (ctx : Context) (deep depth : Nat) (hle : deep ≤ depth) :
    StructurerInRange n deep (Partition.sections ctx deep)
      (Partition.sections ctx depth) := by
  induction deep generalizing depth with
  | zero =>
    intro w list after _ _ hlength
    exact absurd hlength (Nat.not_lt_zero _)
  | succ deep ih =>
    intro w list after hw hlist hlength
    cases depth with
    | zero => exact absurd hle (Nat.not_succ_le_zero deep)
    | succ depth =>
      have hinner : StructurerInRange n list.length
          (Partition.sections ctx deep) (Partition.sections ctx depth) :=
        fun w part after hw hpart hshorter =>
          ih depth (Nat.le_of_succ_le_succ hle) w part after hw hpart (by omega)
      exact sectionsFrom hinner hw hlist (Nat.le_add_left _ _)

end InRange

/-- The work on a graph whose switches lead forward starts out bounded. -/
theorem Work.bounded_start (ctx : Context) {g : Graph}
    (hforward : g.LeadsForward) : (Work.start ctx g).Bounded g.blocks.length :=
  ⟨rfl, hforward, fun _ ht =>
    TryGroup.proper_of_mem_ofMethod (Work.mem_ofMethod_of_start ht)⟩

/-- The blocks of a graph are in order. -/
theorem inOrder_range (n : Nat) : InOrder n (List.range n) :=
  ⟨List.pairwise_lt_range, fun _ => List.mem_range.1⟩

/-- **Taking a graph apart stays in range.**  If the switches of a graph lead
forward, the sections of its blocks are found, or a fault of the method, with
all checks done: every position is inside its list, every number is that of a
block, no fuel runs out, and lists nest at most one deeper than there are
blocks. -/
theorem run_sections_eq_takeApart (ctx : Context) {g : Graph}
    (hforward : g.LeadsForward) :
    ((Partition.sections ctx (g.blocks.length + 1)
      (List.range g.blocks.length) none).checked
        (Work.start ctx g)).run = some (g.takeApart ctx) ∧
      ∀ f, g.takeApart ctx = .error f → f ≠ .nestingTooDeep ∧ ∀ id,
        f ≠ .missingBlock id := by
  have hdepth : g.blocks.length + 1 ≤ (Work.start ctx g).depth :=
    Nat.le_mul_of_pos_right _ (Nat.succ_pos _)
  have hrange := InRange.sections ctx _ _ hdepth (Work.start ctx g)
    (List.range g.blocks.length) none (Work.bounded_start ctx hforward)
    (inOrder_range _) (by rw [List.length_range]; exact Nat.lt_succ_self _)
  have hends : Work.Ends _ _ (g.takeApart ctx) := hrange.ends
  refine ⟨hrange.checked_eq, fun f hf => ?_⟩
  rw [hf] at hends
  constructor
  · rintro rfl
    cases hends
  · rintro id rfl
    cases hends

/-- A switch and a try statement inside a loop: ten blocks are taken apart with
lists nested at most eleven deep. -/
theorem run_sections_eq_takeApart_nested :
    let a : Member := ⟨"C", "a", "()Z"⟩
    let b : Member := ⟨"C", "b", "()I"⟩
    let c : Member := ⟨"C", "c", "()V"⟩
    let d : Member := ⟨"C", "d", "()V"⟩
    let m : Method :=
      { instrs :=
        [.label ⟨0⟩, .call .static a, .ifZero .eq ⟨9⟩, .call .static b,
          .lookupSwitch ⟨2⟩ [(1, ⟨1⟩)], .label ⟨1⟩, .call .static c, .goto ⟨3⟩,
          .label ⟨2⟩,
          .call .static d, .label ⟨3⟩, .call .static c, .label ⟨4⟩, .goto ⟨0⟩,
          .label ⟨5⟩, .pop, .call .static d, .goto ⟨0⟩, .label ⟨9⟩, .ret none]
        ranges := [⟨⟨3⟩, ⟨4⟩, ⟨5⟩, none⟩] }
    let ctx : Context := ⟨m, LocalTable.empty.lookup, {}⟩
    ∃ built g parts, m.graph = .ok built ∧ built.tidy m = .ok g ∧
      g.LeadsForward ∧ g.successors 1 = [2, 4] ∧ g.takeApart ctx = .ok parts ∧
      ((Partition.sections ctx 11 (List.range 10) none).checked
        (Work.start ctx g)).run = some (.ok parts) := by
  intro a b c d m ctx
  have hrun : (do
      let built ← m.graph
      let g ← built.tidy m
      let _ ← g.takeApart ctx
      return (g.blocks.length, decide g.LeadsForward, g.successors 1)) =
        .ok (10, true, [2, 4]) := by decide +kernel
  obtain ⟨built, hbuilt, hrun⟩ := bind_eq_ok.1 hrun
  obtain ⟨g, htidy, hrun⟩ := bind_eq_ok.1 hrun
  obtain ⟨parts, hparts, hrun⟩ := bind_eq_ok.1 hrun
  obtain ⟨hlength, hrest⟩ := Prod.mk.inj (Except.ok.inj hrun)
  obtain ⟨hdecide, hsuccessors⟩ := Prod.mk.inj hrest
  have hforward := of_decide_eq_true hdecide
  have hsame := (run_sections_eq_takeApart ctx hforward).1
  rw [hlength, hparts] at hsame
  exact ⟨built, g, parts, hbuilt, htidy, hforward, hsuccessors, hparts, hsame⟩

/-- A switch that leads back to itself: its case is the whole list again. -/
example :
    let m : Method :=
      { instrs := [.label ⟨0⟩, .load .int 0, .lookupSwitch ⟨1⟩ [(1, ⟨0⟩)],
        .label ⟨1⟩, .ret none]
        ranges := [] }
    let ctx : Context := ⟨m, LocalTable.empty.lookup, {}⟩
    (do
      let built ← m.graph
      let g ← built.tidy m
      return ((Partition.sections ctx (g.blocks.length + 1)
        (List.range g.blocks.length) none).checked
        (Work.start ctx g)).run.isNone : Except Fault Bool) = .ok true := by
  decide +kernel

end Decompiler
