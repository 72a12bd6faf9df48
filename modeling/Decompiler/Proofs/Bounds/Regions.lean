import Decompiler.Proofs.Bounds.Steps

/-!
# Loops, branches, switches and try statements stay in range

A section is made by structuring runs of the list that it is in.  Each of these
runs is shorter than the list: a loop leaves out its last block or its tests, a
branch leaves out its tests, and the runs of a switch or a try statement start
behind it or end in front of the last block.  So the parts are in range if runs
are that are shorter than the list.

* `StructurerInRange`: runs shorter than a bound are in range.
* `InRange.loop`, `InRange.jumpEntered`: loops.
* `InRange.branch`: branches.
* `InRange.switch`, `InRange.tryStatement`: switches and try statements.
-/

namespace Decompiler

/-- Whether runs shorter than a bound are structured in range. -/
def StructurerInRange (n bound : Nat) (inner' inner : Structurer) : Prop :=
  ∀ (w : Work) (list : List Nat) (after : Option Nat), w.Bounded n →
    InOrder n list → list.length < bound →
    InRange n w (inner' list after) (inner list after) fun _ => True

variable {ctx : Context} {n bound : Nat} {inner' inner : Structurer} {w : Work}
  {list rest : List Nat} {first i id : Nat} {after : Option Nat}

/-- A run of a list is structured in range, if it is shorter than the bound. -/
theorem StructurerInRange.slice
    (hinner : StructurerInRange n bound inner' inner) (hw : w.Bounded n)
    (hlist : InOrder n list) {start stop : Nat} (hle : start ≤ stop)
    (hstop : stop ≤ list.length) (hbound : stop - start < bound)
    (after : Option Nat) {α : Type} {Q : α → Prop}
    {k' k : List Section → Partition α}
    (hk : ∀ body w', w'.Bounded n → InRange n w' (k' body) (k body) Q) :
    InRange n w
      (do let body ← inner' (← Partition.slice list start stop) after; k' body)
      (do let body ← inner (← Partition.slice list start stop) after; k body)
      Q := by
  refine .slice hle hstop
    (.bind (hinner w _ after hw (hlist.slice start stop) ?_)
      fun body w' hw' _ => hk body w' hw')
  rw [List.length_drop, List.length_take]
  omega

namespace InRange

/-! ## Loops -/

/-- A loop with its test at the top leaves its last block out of the body. -/
theorem headTested? (hinner : StructurerInRange n bound inner' inner)
    (hw : w.Bounded n) (hregion : InOrder n (first :: rest))
    (hbound : (first :: rest).length ≤ bound) (closing : Nat) :
    InRange n w
      (Partition.headTested? ctx inner' (first :: rest) closing after)
      (Partition.headTested? ctx inner (first :: rest) closing after)
      fun _ => True := by
  have hbelow := hw.below hregion
  refine .ask (Checked.headTests?_eq hbelow (List.cons_ne_nil _ _)) rfl ?_
  cases htests : w.graph.headTests? (first :: rest) with
  | none => exact .pure hw trivial
  | some k =>
    have hk : k < (first :: rest).length :=
      Nat.lt_succ_of_le (Graph.le_of_headTests? htests).2
    refine .front (Nat.le_of_lt hk) (.member hk ?_)
    refine .bind (.guard hw fun id hid =>
      hbelow id (List.take_subset _ _ hid)) fun cond w hw _ => ?_
    exact hinner.slice hw hregion (by omega) (Nat.sub_le _ _) (by omega) _
      fun body w hw => .pure hw trivial

/-- A loop with its test at the bottom leaves the test out of the body. -/
theorem tailTested (hinner : StructurerInRange n bound inner' inner)
    (hw : w.Bounded n) (hregion : InOrder n (first :: rest))
    (hbound : (first :: rest).length ≤ bound) {last : Nat}
    (hlast : last ∈ first :: rest) :
    InRange n w
      (Partition.tailTested ctx inner' first last (first :: rest) after)
      (Partition.tailTested ctx inner first last (first :: rest) after)
      fun _ => True := by
  have hbelow := hw.below hregion
  refine .ask (Checked.tailTestStart_eq hbelow first (Nat.le_refl _)) rfl ?_
  have hstart :=
    w.graph.tailTestStart_le first (first :: rest) (first :: rest).length
  generalize w.graph.tailTestStart first (first :: rest)
    (first :: rest).length = start at hstart
  refine .back hstart ?_
  cases htests : (first :: rest).drop start with
  | nil => exact .irreducible (hbelow last hlast)
  | cons test tests =>
    have hshorter : 0 < ((first :: rest).drop start).length := by
      rw [htests]
      exact Nat.succ_pos _
    rw [List.length_drop] at hshorter
    have htail (id : Nat) (hid : id ∈ test :: tests) :
        id < w.graph.blocks.length :=
      hbelow id (List.drop_subset start _ (htests ▸ hid))
    refine .bind (.guard hw htail) fun cond w hw _ => ?_
    exact hinner.slice hw hregion (Nat.zero_le start) hstart (by omega) _
      fun body w hw => .pure hw trivial

/-- The loop of a region of at least two blocks. -/
theorem loop (hinner : StructurerInRange n bound inner' inner)
    (hw : w.Bounded n) (hregion : InOrder n (first :: rest))
    (hbound : (first :: rest).length ≤ bound) (hrest : rest ≠ []) :
    InRange n w (Partition.loop ctx inner' first rest after)
      (Partition.loop ctx inner first rest after) fun _ => True := by
  have hbelow := hw.below hregion
  have hlast : rest.getLastD first ∈ rest := by
    rw [← List.getLast_eq_getLastD (List.cons_ne_nil first rest),
      List.getLast_cons hrest]
    exact List.getLast_mem hrest
  have hlt := (List.pairwise_cons.1 hregion.ascends).1 _ hlast
  have hpos := List.length_pos_of_ne_nil hrest
  -- without a test at its top the loop is endless, whether a branch stands
  -- there or not
  have hendless (w : Work) (hw : w.Bounded n) : InRange n w
      (do
        let body ← inner'
          (← Partition.slice (first :: rest) 0 ((first :: rest).length - 1))
          (some (rest.getLastD first))
        return Section.whileLoop (.const true) body)
      (do
        let body ← inner
          (← Partition.slice (first :: rest) 0 ((first :: rest).length - 1))
          (some (rest.getLastD first))
        return Section.whileLoop (.const true) body) fun _ => True := by
    have hshorter : (first :: rest).length - 1 < bound :=
      Nat.lt_of_succ_le hbound
    exact hinner.slice hw hregion (Nat.zero_le _) (Nat.sub_le _ _) hshorter _
      fun body w hw => .pure hw trivial
  unfold Partition.loop
  refine .exit (hbelow _ (List.mem_cons_of_mem first hlast)) (.ite ?_ ?_)
  · intro _
    refine .slice (Nat.succ_le_of_lt hpos) (Nat.sub_le _ _) ?_
    refine .bind (.change hbelow (hw.continueAt hlt _)) fun _ w hw _ => ?_
    refine .exit (hw.below hregion _ List.mem_cons_self) (.ite ?_ ?_)
    · refine fun _ => .bind (headTested? hinner hw hregion hbound _)
        fun found w hw _ => ?_
      cases found with
      | some s => exact .pure hw trivial
      | none => exact hendless w hw
    · exact fun _ => hendless _ hw
  · intro _
    exact tailTested hinner hw hregion hbound (List.mem_cons_of_mem first hlast)

/-- A loop that is entered by a jump leaves the jump out. -/
theorem jumpEntered (hinner : StructurerInRange n bound inner' inner)
    (hw : w.Bounded n) (hregion : InOrder n (first :: rest))
    (hbound : (first :: rest).length ≤ bound) :
    InRange n w (Partition.jumpEntered ctx inner' first rest after)
      (Partition.jumpEntered ctx inner first rest after) fun _ => True := by
  have hbelow := hw.below hregion
  have hfirst := hbelow first List.mem_cons_self
  have hrest : InOrder n rest :=
    hregion.sublist (List.sublist_cons_self first rest)
  unfold Partition.jumpEntered
  refine .graph hbelow ?_
  cases (w.graph.exit first).target? with
  | none => exact .irreducible hfirst
  | some target =>
    cases rest with
    | nil => exact .irreducible hfirst
    | cons body others =>
      refine .back List.idxOf_le_length ?_
      have hchain : (body :: others).drop ((body :: others).idxOf target) ⊆
          body :: others :=
        List.drop_subset _ _
      generalize (body :: others).drop ((body :: others).idxOf target) =
        chain at hchain
      cases chain with
      | nil => exact .irreducible hfirst
      | cons test tests =>
        cases hfind : (test :: tests).find? fun id =>
          !(w.graph.exit id).isBranch with
        | some id =>
          have hid := hchain (List.mem_of_find?_eq_some hfind)
          exact .irreducible (hw.below hrest id hid)
        | none =>
          refine .bind (.guard hw fun id hid => hw.below hrest id (hchain hid))
            fun cond w hw _ => ?_
          have hshorter :=
            Nat.lt_of_le_of_lt (List.idxOf_le_length (a := target)) hbound
          exact hinner.slice hw hrest (Nat.zero_le _) List.idxOf_le_length
            hshorter _ fun body w hw => .pure hw trivial

/-! ## Branches -/

/-- The tests of a branch are left out of its body and of the alternative. -/
theorem arm (hinner : StructurerInRange n bound inner' inner)
    (hw : w.Bounded n) (hregion : InOrder n (first :: rest))
    (hbound : (first :: rest).length ≤ bound) :
    InRange n w (Partition.arm ctx inner' first rest after)
      (Partition.arm ctx inner first rest after)
      fun (_, _, others) => InOrder n others ∧
        others.length < (first :: rest).length := by
  have hbelow := hw.below hregion
  have htests : (rest.takeWhile fun id => (w.graph.exit id).isBranch).length <
      (first :: rest).length :=
    Nat.lt_succ_of_le (List.takeWhile_prefix _).length_le
  refine .graph hbelow (.ask (Checked.testRun?_eq hbelow htests after) rfl ?_)
  cases hrun : w.graph.testRun? (first :: rest) after
      (rest.takeWhile fun id => (w.graph.exit id).isBranch).length with
  | none => exact .irreducible (hbelow first List.mem_cons_self)
  | some run =>
    have hpos := (Graph.fits_of_testRun? hrun).size
    have hsize : run.size ≤ (first :: rest).length :=
      Nat.le_trans (Graph.size_le_of_testRun? hrun) htests
    refine .front hsize (.bind (.guard hw fun id hid =>
      hbelow id (List.take_subset _ _ hid)) fun cond w' hw' _ => ?_)
    cases hstart : Graph.alternativeStart? (first :: rest) after run with
    | none =>
      have hlast : run.size - 1 < (first :: rest).length := by omega
      exact .member hlast (.fail rfl)
    | some stop =>
      have hstop := Graph.alternativeStart?_le_length hstart
      have hle : run.size ≤ stop :=
        (Graph.le_of_alternativeStart? hstart).elim id (Nat.le_trans hsize)
      refine hinner.slice hw' hregion hle hstop (by omega) _ fun body w hw => ?_
      refine .back hstop
        (.pure hw ⟨hregion.sublist (List.drop_sublist _ _), ?_⟩)
      rw [List.length_drop]
      omega

/-- What comes instead of a body is taken apart in range. -/
theorem alternative (hinner : StructurerInRange n bound inner' inner)
    {fuel : Nat} {others : List Nat} (hw : w.Bounded n)
    (hothers : InOrder n others) (hbound : others.length < bound)
    (hfuel : others.length ≤ fuel) :
    InRange n w (Partition.alternative ctx inner' after fuel others)
      (Partition.alternative ctx inner after fuel others) fun _ => True := by
  induction fuel generalizing w others with
  | zero =>
    obtain rfl := List.eq_nil_of_length_eq_zero (Nat.le_zero.1 hfuel)
    exact .pure hw trivial
  | succ fuel ih =>
    cases others with
    | nil => exact .pure hw trivial
    | cons first rest =>
      unfold Partition.alternative
      refine .exit (hw.below hothers first List.mem_cons_self) (.ite ?_ ?_)
      · refine fun _ => .bind (arm hinner hw hothers (Nat.le_of_lt hbound)) ?_
        rintro ⟨cond, body, others⟩ w hw ⟨horder, hlength⟩
        exact .bind (ih hw horder (by omega) (by omega)) fun a w hw _ =>
          .pure hw trivial
      · exact fun _ => .bind (hinner w _ after hw hothers hbound)
          fun body w hw _ => .pure hw trivial

/-- The branch statement of a region. -/
theorem branch (hinner : StructurerInRange n bound inner' inner)
    (hw : w.Bounded n) (hregion : InOrder n (first :: rest))
    (hbound : (first :: rest).length ≤ bound) :
    InRange n w (Partition.branch ctx inner' first rest after)
      (Partition.branch ctx inner first rest after) fun _ => True := by
  refine .bind (arm hinner hw hregion hbound) ?_
  rintro ⟨cond, body, others⟩ w hw ⟨horder, hlength⟩
  exact .bind (alternative hinner hw horder (by omega) (Nat.le_refl _))
    fun a w hw _ => .pure hw trivial

/-! ## Switches and try statements -/

/-- The cases of a switch are taken apart in range. -/
theorem cases (hinner : StructurerInRange n bound inner' inner)
    {spans : List CaseSpan} (hw : w.Bounded n) (hlist : InOrder n list)
    (hspans : ∀ c ∈ spans, c.start < c.stop →
      c.stop ≤ list.length ∧ c.stop - c.start < bound) :
    InRange n w (Partition.cases inner' list after spans)
      (Partition.cases inner list after spans) fun _ => True := by
  induction spans generalizing w with
  | nil => exact .pure hw trivial
  | cons c spans ih =>
    obtain ⟨hc, hspans⟩ := List.forall_mem_cons.1 hspans
    have hlater (body : List Section) (w : Work) (hw : w.Bounded n) :
        InRange n w
        (do return ⟨c.keys, c.isDefault, c.breaks, body⟩ ::
          (← Partition.cases inner' list after spans))
        (do return ⟨c.keys, c.isDefault, c.breaks, body⟩ ::
          (← Partition.cases inner list after spans)) fun _ => True :=
      .bind (ih hw hspans) fun cs w hw _ => .pure hw trivial
    unfold Partition.cases
    refine .ite (fun hrun => ?_) fun _ => hlater [] w hw
    exact hinner.slice hw hlist (Nat.le_of_lt hrun) (hc hrun).1 (hc hrun).2
      _ hlater

/-- The handlers of a try statement are taken apart in range. -/
theorem handlers (hinner : StructurerInRange n bound inner' inner)
    {spans : List HandlerSpan} (hw : w.Bounded n) (hlist : InOrder n list)
    (hspans : ∀ h ∈ spans, h.start ≤ h.stop ∧ h.stop ≤ list.length ∧
      h.stop - h.start < bound) :
    InRange n w (Partition.handlers inner' list after spans)
      (Partition.handlers inner list after spans) fun _ => True := by
  induction spans generalizing w with
  | nil => exact .pure hw trivial
  | cons h spans ih =>
    obtain ⟨⟨hle, hstop, hshorter⟩, hspans⟩ := List.forall_mem_cons.1 hspans
    exact hinner.slice hw hlist hle hstop hshorter _ fun body w hw =>
      .bind (ih hw hspans) fun hs w hw _ => .pure hw trivial

/-- The switch statement at position `i` of a list. -/
theorem switch (hinner : StructurerInRange n bound inner' inner)
    (hw : w.Bounded n) (hlist : InOrder n list) (hbound : list.length ≤ bound)
    {plan : SwitchPlan} (hplan : plan.Inside list i) :
    InRange n w (Partition.switch inner' list id plan after)
      (Partition.switch inner list id plan after) fun _ => True := by
  refine .bind (cases hinner hw hlist fun c hc hrun => ?_)
    fun cs w hw _ => .pure hw trivial
  obtain ⟨hstart, hstop⟩ := hplan.cases c hc hrun
  omega

/-- The layout of the try statement at position `i` of a list. -/
theorem tryPlan? (hw : w.Bounded n) (hlist : InOrder n list)
    (hid : list[i]? = some id) :
    InRange n w (Partition.tryPlan? list id) (Partition.tryPlan? list id)
      fun found => ∀ t plan, found = some (t, plan) → plan.Inside list i := by
  refine .ask rfl rfl ?_
  cases hlongest : TryGroup.longest? list id w.pending with
  | none => exact .pure hw nofun
  | some t =>
    obtain ⟨hmem, hfits⟩ := List.mem_filter.1 (List.mem_of_getLast? hlongest)
    simp only [Bool.and_eq_true, decide_eq_true_eq] at hfits
    obtain ⟨hstart, hstop⟩ := hfits
    have hlt := lt_idxOf_of_lt (hlist.ascends.imp Nat.le_of_lt) hid
      (hstart ▸ hw.proper t hmem)
    refine .ask (Checked.tryPlan?_eq (hw.below hlist) (Nat.zero_lt_of_lt hlt)
      hstop) rfl ?_
    cases hplan : w.graph.tryPlan? list t with
    | some plan =>
      refine .pure hw ?_
      rintro t plan ⟨⟩
      exact TryPlan.inside_of_laysOut (Graph.laysOut_of_tryPlan? hplan)
        hlt hstop
    | none => exact .bind (.use hw t) fun _ w hw _ => .pure hw nofun

/-- The try statement at position `i` of a list. -/
theorem tryStatement (hinner : StructurerInRange n bound inner' inner)
    (hw : w.Bounded n) (hlist : InOrder n list) (hbound : list.length ≤ bound)
    {t : TryGroup} {plan : TryPlan} (hplan : plan.Inside list i) :
    InRange n w (Partition.tryStatement inner' list i t plan after)
      (Partition.tryStatement inner list i t plan after) fun _ => True := by
  obtain ⟨hbody, hstop⟩ := hplan.body
  refine .bind (.use hw t) fun _ w hw _ => ?_
  refine hinner.slice hw hlist hbody (Nat.le_of_lt hstop) (by omega) _
    fun body w hw => ?_
  refine .bind (handlers hinner hw hlist fun h hh => ?_)
    fun hs w hw _ => .pure hw trivial
  obtain ⟨hstart, hle, hlast⟩ := hplan.handlers h hh
  exact ⟨hle, hlast, by omega⟩

end InRange

end Decompiler
