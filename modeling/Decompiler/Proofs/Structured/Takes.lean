import Decompiler.Proofs.Structured.Arm

/-!
# Taking layouts apart

A list of blocks with a layout is taken apart without a fault, into sections
that say where control goes and that become statements.  The regions inside a
region are shorter than it, and so are the runs inside the sections.

* `takesRegions_regionSection`: the region of a branch is taken apart.
* `Layout.Sits.takesFrom`: what is left of a list is taken apart.
* `takesLayouts_sections`: every layout is taken apart.
-/

namespace Decompiler

open Layout (region)

variable {ctx : Context} {g₀ : Graph} {w w' : Told} {l body other rest : Layout}
    {b n size : Nat}
  {next : Option Nat} {inner : Structurer}

/-- A branch fills the list of its region. -/
theorem Layout.Fits.sits_region {g : Graph}
    (hfits : (Layout.branch b body other .stop).Fits ctx g₀ g (some n))
    (hasc : Ascends (region b body other) (some n)) :
    (Layout.branch b body other .stop).Sits ctx g₀ g [] [] (some n) := by
  rw [← ids_branch_stop] at hasc
  refine ⟨hfits,
    hasc, by simpa using hasc.nodup, fun id hid => absurd hid List.not_mem_nil,
    fun id hid => absurd hid List.not_mem_nil, fun m hm => ?_, .inl rfl⟩
  cases hm
  simpa using hasc.notMem

/-- **Regions.**  If shorter layouts are taken apart, so is the region of a
branch. -/
theorem takesRegions_regionSection (hstands : AllStand ctx g₀)
    (hinner : TakesLayouts ctx g₀ size inner) {fuel : Nat}
    (hfuel : fuel ≤ size) :
    TakesRegions ctx g₀ fuel (Partition.regionSection ctx inner fuel) := by
  induction fuel with
  | zero =>
    intro b body other n w _ _ _ hlength
    cases hlength
  | succ fuel ih =>
    intro b body other n w hw hfits hasc hlength
    have hsits := hfits.sits_region hasc
    have hids := Layout.ids_branch_stop b body other
    have hfold : (Layout.branch b body other .stop).fold =
        .branch b body.fold other.fold .stop := if_pos rfl
    have hids' : (Layout.branch b body other .stop).fold.ids = region b
        body.fold other.fold := by
      rw [hfold, Layout.ids_branch_stop]
    have hsub :
        (region b body.fold other.fold).Sublist (region b body other) := by
      have hsub := (Layout.branch b body other .stop).ids_fold_sublist
      rwa [hids, hids'] at hsub
    obtain ⟨w₁, htaken, hfits₁, hruns⟩ := hsits.exists_folds inner
      (ih (by omega)) hw (by rw [hids]; exact hlength)
    have hrun :
        (Partition.foldNested inner (Partition.regionSection ctx inner fuel)
        (body.ids ++ other.ids).length 1 (b :: (body.ids ++ other.ids))).told w =
        .ok (region b body.fold other.fold, w₁) := by
      -- the branch itself ends with the list, so folding starts behind it
      have hskip :=
        Partition.told_foldNested_of_none (body.ids ++ other.ids).length
          (show ([] ++ ((Layout.branch b body other .stop).ids ++ []))[0]? =
            some b from rfl)
          (hsits.told_nestedAt_branch inner
            (Partition.regionSection ctx inner fuel) hw.sure)
      obtain ⟨more, hmore⟩ : ∃ more, (body.ids ++ other.ids).length + 1 =
          (region b body.fold other.fold).length + more :=
        ⟨_, (Nat.add_sub_cancel' hsub.length_le).symm⟩
      have hthere := hruns more
      simp only [hids', List.nil_append, List.append_nil, List.length_nil,
        Nat.zero_add] at hthere
      rw [← hmore, Partition.told_foldNested_of_end] at hthere
      rw [hids] at hskip hthere
      simp only [List.nil_append, List.append_nil] at hskip
      exact hskip.symm.trans hthere
    rw [hids] at htaken
    rw [hfold] at hfits₁
    have hregion : (region b body.fold other.fold).length ≤ size :=
      Nat.le_trans hsub.length_le (Nat.le_trans hlength hfuel)
    obtain ⟨s, w', hbranch, hassembles, htaken'⟩ :=
      hfits₁.told_branch hinner hstands htaken.course
        (hasc.of_sublist (hsub.append_right _)) body.flat_fold
        other.flat_fold hregion
    refine ⟨s, w', ?_, hassembles,
      htaken.trans (htaken'.widen _ _ hsub.subset (fun t ht => .inr ht)
      htaken.within)⟩
    have hjump : (w.graph.exit b).isJump = false := by
      cases hfits with
      | branch _ exit => rw [exit]; rfl
    rw [Layout.region, Partition.regionSection]
    simp only [Bool.false_eq_true, if_false]
    rw [Partition.told_exit_bind, hjump]
    exact Partition.told_bind.2 ⟨_, w₁, hrun, hbranch⟩

/-! ### Lists -/

theorem Graph.meets_refl (g : Graph) (next : Option Nat) :
    g.meets next next = true :=
  beq_self_eq_true _

namespace Layout.Sits

variable {pre : List Nat}

/-- The block behind the first one of a layout. -/
theorem getElem?_succ (next : Option Nat) (hids : l.ids = b :: rest.ids) :
    (pre ++ (l.ids ++ []))[pre.length + 1]?.or next = rest.first next := by
  have hsplit : pre ++ (l.ids ++ []) = (pre ++ [b]) ++ (rest.ids ++ []) := by
    simp [hids]
  have hplace : pre.length + 1 = (pre ++ [b]).length := by simp
  rw [hsplit, hplace, getElem?_middle, List.append_nil, first]

/-- Straight-line code is a section, and so is what a region has been folded
into. -/
theorem told_sectionAt_of_plain (inner : Structurer) (rest : Layout)
    (hstands : AllStand ctx g₀) (h : l.Sits ctx g₀ w.graph pre [] next)
    (hw : OnCourse ctx g₀ w) (hids : l.ids = b :: rest.ids)
    (hplain : (w.graph.exit b).isBranch = false)
    (hgoes : w.graph.goesOn b (rest.first next) = true)
    (hedges : ∀ t ∈ w.graph.successors b, rest.first next = some t)
    (huntouched : (w.graph.block b).folded = none → g₀.Untouched w.graph b)
    (hassembles : ∀ s, (w.graph.block b).folded = some s →
      Assembles ctx g₀ [s]) :
    ∃ s w',
      (Partition.sectionAt ctx inner (pre ++ (l.ids ++ [])) next pre.length
        b).told w = .ok ((s, pre.length + 1), w') ∧
      Assembles ctx g₀ [s] ∧ Taken ctx g₀ w [b] (rest.first next) w' := by
  have hlt := h.fits.lt_length b (by simp [hids])
  have hwithin : w.graph.Within [b] (rest.first next) := fun id hid t ht => by
    obtain rfl := List.mem_singleton.1 hid
    exact .inr (hedges t ht)
  have hat {s : Section} {w' : Told}
      (hsingle : (Partition.single b (rest.first next)).told w = .ok (s, w')) :
      (Partition.sectionAt ctx inner (pre ++ (l.ids ++ [])) next pre.length
        b).told w = .ok ((s, pre.length + 1), w') := by
    have hswitch : (w.graph.block b).exit.isSwitch = false := hw.sure.noSwitch b
    have hplain' : (w.graph.block b).exit.isBranch = false := hplain
    have hnext : (pre ++ (l.ids ++ []))[pre.length + 1]?.or next =
        rest.first next := getElem?_succ next hids
    rw [← hnext] at hsingle
    have halone := Partition.told_bind_of_ok
      (f := fun s => (pure (s, pre.length + 1) : Partition (Section × Nat)))
      hsingle
    rw [Partition.sectionAt,
      Partition.told_bind_of_ok (Partition.told_block_of_lt hlt)]
    dsimp only
    split
    · exact halone
    · rw [Partition.told_bind_of_ok
        (Partition.told_tryPlan?_of_pending hw.sure.pending)]
      simp only [hswitch, hplain', Partition.told_lastBackEdge?_bind,
        h.lastBackEdge?_eq_none, Partition.told_jumpsIntoTest_bind,
        h.jumpsIntoTest_eq_false, Bool.false_eq_true, if_false, Bool.or_false]
      exact halone
  have hfaithful : (w.faithful && w.graph.goesOn b (rest.first next)) =
      w.faithful := by rw [hgoes, Bool.and_true]
  cases hfolded : (w.graph.block b).folded with
  | some s =>
    have hsingle : (Partition.single b (rest.first next)).told w = _ :=
      Partition.told_single_of_folded hfolded
    rw [hfaithful] at hsingle
    obtain ⟨hsure, hkept, -⟩ :=
      Confined.single _ (List.mem_singleton_self b) w _ _ hw.sure hsingle
    refine ⟨s, _, hat hsingle, hassembles s hfolded,
      ⟨hsure, hw.faithful⟩, hkept, fun id hid t ht => ?_⟩
    refine hwithin id hid t ?_
    obtain rfl := List.mem_singleton.1 hid
    rw [Graph.successors, Graph.exit, Graph.unfold,
      w.graph.block_modify_self _ hlt] at ht
    exact ht
  | none =>
    have hsingle : (Partition.single b (rest.first next)).told w = _ :=
      Partition.told_single_of_plain hfolded
    rw [hfaithful] at hsingle
    obtain ⟨hsame, -⟩ := huntouched hfolded
    have hplain₀ : (g₀.exit b).isBranch = false := by
      rw [Graph.exit, ← hsame]
      exact hplain
    exact ⟨.inline b, w, hat hsingle, .inline (hstands b (hw.sure.length ▸ hlt))
      hplain₀, .refl hw hwithin⟩

/-- A branch is the section of its region. -/
theorem told_sectionAt_branch (hstands : AllStand ctx g₀)
    (hinner : TakesLayouts ctx g₀ size inner)
    (h : (branch b body other rest).Sits ctx g₀ w.graph pre [] next)
    (hw : OnCourse ctx g₀ w) (hsize : (region b body other).length ≤ size) :
    ∃ s w',
      (Partition.sectionAt ctx inner
        (pre ++ ((branch b body other rest).ids ++ [])) next
        pre.length b).told w =
          .ok ((s, pre.length + (region b body other).length), w') ∧
      Assembles ctx g₀ [s] ∧ Taken ctx g₀ w (region b body other)
        (rest.first next) w' := by
  have hlt := h.fits.lt_length b (by simp [ids])
  have hswitch : (w.graph.block b).exit.isSwitch = false := hw.sure.noSwitch b
  have hfits := h.fits
  cases hfits with
  | branch untouched exit _ _ _ _ _ _ fits =>
    obtain ⟨n, hn⟩ := Option.isSome_iff_exists.1 fits.first_isSome
    obtain ⟨s, w', hrun, hassembles, htaken⟩ :=
      takesRegions_regionSection hstands hinner hsize b body other n w hw
        (h.fits.of_branch hn) (h.ascends.of_branch hn) (Nat.le_refl _)
    rw [hn]
    refine ⟨s, w', ?_, hassembles, htaken⟩
    have hfolded : (w.graph.block b).folded = none := by
      rw [untouched.1]
      exact untouched.2
    have hbranch : (w.graph.block b).exit.isBranch = true := by
      have hexit : (w.graph.block b).exit = _ := exit
      rw [hexit]
      rfl
    have hpos : pre.length < pre.length + (region b body other).length := by
      rw [region, List.length_cons]
      omega
    have hlist : pre ++ ((branch b body other rest).ids ++ []) =
        pre ++ (region b body other ++ rest.ids) := by simp [ids_branch]
    have hafter : (pre ++ (region b body other ++ rest.ids))[
        pre.length + (region b body other).length]?.or next = some n := by
      rw [← List.append_assoc, ← List.length_append,
        List.getElem?_append_right (Nat.le_refl _), Nat.sub_self,
        ← List.head?_eq_getElem?]
      exact hn
    rw [Partition.sectionAt,
      Partition.told_bind_of_ok (Partition.told_block_of_lt hlt)]
    dsimp only
    rw [hfolded, if_neg (by simp), Partition.told_bind_of_ok
      (Partition.told_tryPlan?_of_pending hw.sure.pending)]
    simp only [hswitch, hbranch, Partition.told_lastBackEdge?_bind,
      h.lastBackEdge?_eq_none, Partition.told_jumpsIntoTest_bind,
      Partition.told_extent?_bind, h.extent?, Bool.true_or, Bool.false_eq_true,
      if_true, if_false, Option.filter_some, decide_eq_true hpos]
    rw [hlist, hafter, Partition.told_slice_bind, take_drop_middle,
      Nat.add_sub_cancel_left]
    exact Partition.told_bind.2 ⟨s, w', hrun, rfl⟩

/-- What is left of a list can be taken apart with some fuel. -/
def TakesFrom (ctx : Context) (g₀ : Graph) (inner : Structurer)
    (size fuel : Nat) : Prop :=
  ∀ {l : Layout} {pre : List Nat} {next : Option Nat} {w : Told},
    l.Sits ctx g₀ w.graph pre [] next → OnCourse ctx g₀ w →
    l.ids.length ≤ fuel → l.ids.length ≤ size →
    ∃ ss w',
      (Partition.sectionsFrom ctx inner (pre ++ (l.ids ++ [])) next fuel
        pre.length).told w = .ok (ss, w') ∧
      Assembles ctx g₀ ss ∧ Taken ctx g₀ w l.ids next w'

/-- One section is taken off the front of a list, and then the rest. -/
theorem told_sectionsFrom_succ {fuel : Nat}
    (ih : TakesFrom ctx g₀ inner size fuel) {l : Layout} {pre : List Nat}
    {next : Option Nat} (h : l.Sits ctx g₀ w.graph pre [] next)
    (hfuel : l.ids.length ≤ fuel + 1) (hsize : l.ids.length ≤ size)
    (rest : Layout) (front : List Nat) {b : Nat}
    (hids : l.ids = front ++ rest.ids) (hb : front.head? = some b)
    (hfits : rest.Fits ctx g₀ w.graph next)
    (hat : ∃ s w',
      (Partition.sectionAt ctx inner (pre ++ (l.ids ++ [])) next pre.length
      b).told w =
        .ok ((s, pre.length + front.length), w') ∧
      Assembles ctx g₀ [s] ∧ Taken ctx g₀ w front (rest.first next) w') :
    ∃ ss w',
      (Partition.sectionsFrom ctx inner (pre ++ (l.ids ++ [])) next (fuel + 1)
        pre.length).told w = .ok (ss, w') ∧
      Assembles ctx g₀ ss ∧ Taken ctx g₀ w l.ids next w' := by
  obtain ⟨s, w₁, hrun, hassembles, htaken⟩ := hat
  have hpos : 0 < front.length := by
    cases front with
    | nil => cases hb
    | cons => exact Nat.succ_pos _
  have hnodup := h.ascends.nodup
  rw [hids] at hnodup
  have hfits₁ : rest.Fits ctx g₀ w₁.graph next := hfits.congr fun id hid =>
    htaken.others id fun hmem =>
      (List.nodup_append.1 hnodup).2.2 id hmem id hid rfl
  have hrest :=
    h.of_front hids (List.length_pos_iff.1 hpos) (.inl rfl)
      (List.Sublist.refl _) hfits₁ htaken.others htaken.within
  have hlength : l.ids.length = front.length + rest.ids.length := by
    rw [hids, List.length_append]
  obtain ⟨ss, w', hrun', hassembles', htaken'⟩ :=
    ih hrest htaken.course (by omega) (by omega)
  have hlist : pre ++ front ++ (rest.ids ++ []) = pre ++ (l.ids ++ []) := by
    simp [hids]
  have hid : (pre ++ (l.ids ++ []))[pre.length]? = some b := by
    rw [getElem?_middle, hids, List.append_assoc, List.head?_append, hb]
    rfl
  have hwide := htaken.widen (l.ids) next (fun id hid => by simp [hids, hid])
    (fun t ht =>
      (mem_or_eq_of_first ht).imp_left fun hmem => by simp [hids, hmem])
    h.fits.within
  refine ⟨s :: ss, w', ?_, hassembles.cons hassembles', hwide.trans
    (htaken'.widen _ _ (fun id hid => by simp [hids, hid]) (fun t ht => .inr ht)
      hwide.within)⟩
  rw [hlist, List.length_append] at hrun'
  rw [Partition.sectionsFrom, Partition.told_next?_bind, hid]
  exact Partition.told_bind.2
    ⟨_, w₁, hrun, Partition.told_bind.2 ⟨ss, w', hrun', rfl⟩⟩

/-- A return is the last section of a list. -/
theorem told_sectionsFrom_ret (hstands : AllStand ctx g₀) {r : Nat}
    {pre : List Nat} {next : Option Nat}
    (h : (ret r).Sits ctx g₀ w.graph pre [] next) (hw : OnCourse ctx g₀ w)
    (fuel : Nat) :
    ∃ ss w',
      (Partition.sectionsFrom ctx inner (pre ++ ((ret r).ids ++ [])) next
        (fuel + 1) pre.length).told w = .ok (ss, w') ∧
      Assembles ctx g₀ ss ∧ Taken ctx g₀ w (ret r).ids next w' := by
  have hfits := h.fits
  cases hfits with
  | ret untouched exit =>
    obtain ⟨s, w', hrun, hassembles, htaken⟩ :=
      h.told_sectionAt_of_plain inner stop hstands hw rfl
        (by rw [exit]; rfl) (by rw [Graph.goesOn, exit])
        (by simp [Graph.successors, exit, Exit.successors])
        (fun _ => untouched) fun s hs => by
          rw [untouched.1, untouched.2] at hs; cases hs
    refine ⟨[s], w', ?_, hassembles, htaken⟩
    have hid : (pre ++ ((ret r).ids ++ []))[pre.length]? = some r := by
      rw [getElem?_middle]
      rfl
    have hend :
        (Partition.sectionsFrom ctx inner (pre ++ ((ret r).ids ++ [])) none fuel
        (pre.length + 1)).told w' = .ok ([], w') := by
      cases fuel <;>
        rw [Partition.sectionsFrom, Partition.told_next?_bind,
          List.getElem?_eq_none (by simp [ids])] <;>
        rfl
    rw [Partition.sectionsFrom, Partition.told_next?_bind, hid]
    exact Partition.told_bind.2
      ⟨_, w', hrun, Partition.told_bind.2 ⟨[], w', hend, rfl⟩⟩

/-- **Lists.**  What is left of a list is taken apart. -/
theorem takesFrom (hstands : AllStand ctx g₀)
    (hinner : TakesLayouts ctx g₀ size inner) (fuel : Nat) :
    TakesFrom ctx g₀ inner size fuel := by
  induction fuel with
  | zero =>
    intro l pre next w h hw hfuel _
    obtain rfl :=
      ids_eq_nil_iff.1 (List.length_eq_zero_iff.1 (Nat.le_zero.1 hfuel))
    refine ⟨[], w, ?_, .nil, .refl hw h.fits.within⟩
    rw [Partition.sectionsFrom, Partition.told_next?_bind, getElem?_middle]
    rfl
  | succ fuel ih =>
    intro l pre next w h hw hfuel hsize
    have hfits := h.fits
    cases hfits with
    | stop =>
      refine ⟨[], w, ?_, .nil, .refl hw h.fits.within⟩
      rw [Partition.sectionsFrom, Partition.told_next?_bind, getElem?_middle]
      rfl
    | @leave j n untouched exit =>
      refine told_sectionsFrom_succ ih h hfuel hsize stop [j] rfl rfl .stop
        (h.told_sectionAt_of_plain inner stop hstands hw rfl
          (by rw [exit]; rfl) ?_ ?_ (fun _ => untouched)
          fun s hs => ?_)
      · rw [Graph.goesOn, exit]
        exact w.graph.meets_refl _
      · simp [Graph.successors, exit, Exit.successors, first, ids]
      · rw [untouched.1, untouched.2] at hs
        cases hs
    | ret => exact h.told_sectionsFrom_ret hstands hw fuel
    | @plain b rest _ runs fits =>
      refine told_sectionsFrom_succ ih h hfuel hsize rest [b] rfl rfl fits
        (h.told_sectionAt_of_plain inner rest hstands hw rfl
          (by rw [runs.exit]; rfl) ?_ ?_ runs.untouched runs.assembles)
      · rw [Graph.goesOn, runs.exit]
        exact w.graph.meets_refl _
      · intro t ht
        rw [Graph.successors, runs.exit, Exit.successors,
          Option.mem_toList] at ht
        exact ht
    | @branch b k body other rest _ _ exit _ _ _ _ _ _ fits =>
      exact told_sectionsFrom_succ ih h hfuel hsize rest (region b body other)
        (ids_branch b body other rest) rfl fits
        (h.told_sectionAt_branch hstands hinner hw (by
          rw [ids_branch, List.length_append] at hsize
          omega))

end Layout.Sits

/-- **Layouts.**  Every layout is taken apart. -/
theorem takesLayouts_sections (hstands : AllStand ctx g₀) (d : Nat) :
    TakesLayouts ctx g₀ d (Partition.sections ctx d) := by
  induction d with
  | zero =>
    intro l next w _ _ _ hlength
    exact absurd hlength (Nat.not_lt_zero _)
  | succ d ih =>
    intro l next w hw hfits hasc hlength
    have hsits : l.Sits ctx g₀ w.graph [] [] next := by
      refine ⟨hfits,
        hasc, by simpa using hasc.nodup, fun id hid => absurd hid List.not_mem_nil,
        fun id hid => absurd hid List.not_mem_nil, fun n hn => ?_, .inl rfl⟩
      subst hn
      simpa using hasc.notMem
    have htakes := Layout.Sits.takesFrom hstands ih _ hsits hw (Nat.le_refl _)
      (Nat.le_of_lt_succ hlength)
    simp only [List.nil_append, List.append_nil, List.length_nil] at htakes
    exact htakes

end Decompiler
