import Decompiler.Proofs.Structured.Sits

/-!
# Folding layouts

Before a branch is taken apart the branches inside it are folded, except those
that end where it ends.  Of its layout those are left, in a row with
straight-line code.

* `Layout.fold`: the layout that is left, and `Layout.Flat`, what is true of it.
* `Layout.Sits.told_nestedAt`: which regions of a layout are folded.
* `Layout.Sits.exists_folds`: folding a layout leaves `Layout.fold`.
-/

namespace Decompiler

namespace Layout

/-- A layout when every branch that something comes after is folded. -/
def fold : Layout → Layout
  | stop => stop
  | leave j => leave j
  | ret r => ret r
  | plain b rest => plain b rest.fold
  | branch b body other rest =>
    if rest = stop then
      branch b body.fold other.fold stop else plain b rest.fold

/-- Only the last block of a layout is a branch, and so in its parts. -/
def Flat : Layout → Prop
  | stop | leave _ | ret _ => True
  | plain _ rest => rest.Flat
  | branch _ body other rest => rest = stop ∧ body.Flat ∧ other.Flat

variable {l : Layout}

theorem flat_fold (l : Layout) : l.fold.Flat := by
  induction l with
  | stop => trivial
  | leave => trivial
  | ret => trivial
  | plain b rest ih => exact ih
  | branch b body other rest ihBody ihOther ihRest =>
    rw [fold]
    split
    · exact ⟨rfl, ihBody, ihOther⟩
    · exact ihRest

theorem ids_fold_sublist (l : Layout) : l.fold.ids.Sublist l.ids := by
  induction l with
  | stop => exact List.Sublist.refl _
  | leave => exact List.Sublist.refl _
  | ret => exact List.Sublist.refl _
  | plain b rest ih => exact ih.cons_cons b
  | branch b body other rest ihBody ihOther ihRest =>
    rw [fold]
    split
    · exact (ihBody.append (ihOther.append (List.nil_sublist _))).cons_cons b
    · refine List.Sublist.cons_cons b (ihRest.trans ?_)
      exact (List.sublist_append_right _ _).trans
        (List.sublist_append_right _ _)

theorem head?_ids_fold (l : Layout) : l.fold.ids.head? = l.ids.head? := by
  cases l with
  | branch b body other rest =>
    rw [fold]
    split <;> rfl
  | _ => rfl

theorem first_fold (l : Layout) (next : Option Nat) :
    l.fold.first next = l.first next := by
  rw [first, head?_ids_fold, first]

theorem ids_fold_ne_nil (h : l.ids ≠ []) : l.fold.ids ≠ [] := by
  intro hnil
  apply h
  rw [← List.head?_eq_none_iff, ← head?_ids_fold, hnil]
  rfl

theorem stops_fold (l : Layout) : l.fold.stops = l.stops := by
  induction l with
  | plain b rest ih => exact ih
  | branch b body other rest _ _ ihRest =>
    rw [fold]
    split
    · rename_i hrest
      rw [hrest]
      rfl
    · exact ihRest
  | _ => rfl

theorem leaves_fold (l : Layout) : l.fold.leaves = l.leaves := by
  induction l with
  | plain b rest ih => exact ih
  | branch b body other rest _ _ ihRest =>
    rw [fold]
    split
    · rename_i hrest
      rw [hrest]
      rfl
    · exact ihRest
  | _ => rfl

end Layout

/-! ### Taking blocks apart -/

/-- Work that has gone well so far. -/
structure OnCourse (ctx : Context) (g₀ : Graph) (w : Told) : Prop where
  sure : Sure ctx g₀ w
  faithful : w.faithful = true

/-- Some blocks have been taken apart, and no others.  They still lead to each
other and to what comes after them. -/
structure Taken (ctx : Context) (g₀ : Graph) (w : Told) (ids : List Nat)
    (next : Option Nat) (w' : Told) : Prop where
  course : OnCourse ctx g₀ w'
  others : ∀ id, id ∉ ids → w'.graph.block id = w.graph.block id
  within : w'.graph.Within ids next

variable {ctx : Context} {g₀ : Graph} {w w' w'' : Told} {ids more : List Nat}
  {next next' : Option Nat}

namespace Taken

theorem refl (hw : OnCourse ctx g₀ w) (h : w.graph.Within ids next) :
    Taken ctx g₀ w ids next w := ⟨hw, fun _ _ => rfl, h⟩

theorem trans (h : Taken ctx g₀ w ids next w')
    (h' : Taken ctx g₀ w' ids next w'') : Taken ctx g₀ w ids next w'' :=
  ⟨h'.course, fun id hid => (h'.others id hid).trans (h.others id hid),
    h'.within⟩

/-- Blocks that are left alone lead where they did. -/
theorem widen (more : List Nat) (next' : Option Nat)
    (h : Taken ctx g₀ w ids next w') (hsub : ids ⊆ more)
    (hnext : ∀ t, next = some t → t ∈ more ∨ next' = some t)
    (hwithin : w.graph.Within more next') : Taken ctx g₀ w more next' w' := by
  refine ⟨h.course, fun id hid => h.others id fun hmem => hid (hsub hmem),
    fun id hid t ht => ?_⟩
  by_cases hmem : id ∈ ids
  · rcases h.within id hmem t ht with hmem' | heq
    · exact .inl (hsub hmem')
    · exact hnext t heq
  · rw [Graph.successors, Graph.exit, h.others id hmem] at ht
    exact hwithin id hid t ht

/-- A region is folded into its first block. -/
theorem fold (hw : OnCourse ctx g₀ w) (hwithin : w.graph.Within ids next)
    {id n : Nat} (hid : id ∈ ids) (hlt : id < w.graph.blocks.length)
    (hn : n ∈ ids ∨ next = some n) (s : Section) :
    Taken ctx g₀ w ids next { w with graph := w.graph.fold id s (some n) } := by
  have hrun : (Partition.change ids fun g => g.fold id s (some n)).told w =
      .ok ((), { w with graph := w.graph.fold id s (some n) }) :=
        Partition.told_change.2 rfl
  obtain ⟨hsure, hkept⟩ := Confined.fold s (some n) hid w _ _ hw.sure hrun
  refine ⟨⟨hsure, hw.faithful⟩, hkept.others, fun x hx t ht => ?_⟩
  by_cases hne : id = x
  · subst hne
    rw [Graph.successors, Graph.exit, Graph.fold,
      w.graph.block_modify_self _ hlt] at ht
    obtain rfl := List.mem_singleton.1 ht
    exact hn
  · rw [Graph.successors, Graph.exit, Graph.fold,
      w.graph.block_modify_of_ne _ hne] at ht
    exact hwithin x hx t ht

end Taken

namespace Partition

theorem told_tryPlan?_of_pending {list : List Nat} {id : Nat}
    (h : w.pending = []) : (tryPlan? list id).told w = .ok (none, w) := by
  simp only [tryPlan?, told_pending_bind, h, TryGroup.longest?,
    List.filter_nil, List.getLast?_nil]
  rfl

end Partition

/-! ### Folding -/

/-- The regions of branches of a limited size can be taken apart. -/
def TakesRegions (ctx : Context) (g₀ : Graph) (size : Nat)
    (nested : Partition.RegionStructurer) : Prop :=
  ∀ (b : Nat) (body other : Layout) (n : Nat) (w : Told), OnCourse ctx g₀ w →
    (Layout.branch b body other .stop).Fits ctx g₀ w.graph (some n) →
    Ascends (Layout.region b body other) (some n) →
    (Layout.region b body other).length ≤ size →
    ∃ s w', (nested false (Layout.region b body other) (some n)).told w =
      .ok (s, w') ∧
      Assembles ctx g₀ [s] ∧ Taken ctx g₀ w (Layout.region b body other)
        (some n) w'

namespace Layout.Sits

variable {inner : Structurer} {nested : Partition.RegionStructurer}
    {l body other rest : Layout}
  {pre post : List Nat} {b : Nat}

/-- In a layout the only regions are those of branches. -/
theorem told_nestedAt (h : l.Sits ctx g₀ w.graph pre post next)
    (hw : Sure ctx g₀ w) (hb : l.ids.head? = some b) :
    (Partition.nestedAt inner nested (pre ++ (l.ids ++ post)) pre.length b).told
      w = (if (w.graph.block b).folded.isSome then pure none
      else if (w.graph.exit b).isBranch then
        match (w.graph.extent? (pre ++ (l.ids ++ post)) pre.length).filter
          (pre.length < ·) with
        | some finish =>
          match (pre ++ (l.ids ++ post))[finish]? with
          | some next => do
            return some (finish, ← do
              nested false (← Partition.slice (pre ++ (l.ids ++ post))
                pre.length finish) (some next))
          | none => return none
        | none => return none
      else return none : Partition (Option (Nat × Section))).told w := by
  have hlt := h.fits.lt_length b (List.mem_of_mem_head? hb)
  have hswitch : (w.graph.block b).exit.isSwitch = false := hw.noSwitch b
  rw [Partition.nestedAt,
    Partition.told_bind_of_ok (Partition.told_block_of_lt hlt)]
  split
  · rfl
  · rw [Partition.told_bind_of_ok
      (Partition.told_tryPlan?_of_pending hw.pending)]
    simp only [hswitch, Bool.false_eq_true, if_false,
      Partition.told_lastBackEdge?_bind, h.lastBackEdge?_eq_none,
      Partition.told_jumpsIntoTest_bind, h.jumpsIntoTest_eq_false,
      Bool.or_false]
    by_cases hbranch : (w.graph.block b).exit.isBranch = true
    · rw [if_pos hbranch, Partition.told_extent?_bind, Graph.exit,
        if_pos hbranch]
      rfl
    · rw [if_neg hbranch, Graph.exit, if_neg hbranch]

variable (inner nested) in
/-- Straight-line code, and what has been folded, is no region. -/
theorem told_nestedAt_of_not_branch (h : l.Sits ctx g₀ w.graph pre post next)
    (hw : Sure ctx g₀ w) (hb : l.ids.head? = some b)
    (hplain : (w.graph.exit b).isBranch = false) :
    (Partition.nestedAt inner nested (pre ++ (l.ids ++ post)) pre.length b).told
      w = .ok (none, w) := by
  rw [h.told_nestedAt hw hb]
  simp only [hplain, Bool.false_eq_true, if_false, ite_self]
  rfl

variable (inner nested) in
/-- A branch is a region, if something comes after it in the list. -/
theorem told_nestedAt_branch
    (h : (branch b body other rest).Sits ctx g₀ w.graph pre post next)
    (hw : Sure ctx g₀ w) :
    (Partition.nestedAt inner nested
      (pre ++ ((branch b body other rest).ids ++ post)) pre.length b).told w =
      (match (rest.ids ++ post).head? with
      | some next => do
        let s ← nested false (region b body other) (some next)
        return some (pre.length + (region b body other).length, s)
      | none => return none : Partition (Option (Nat × Section))).told w := by
  have hfits := h.fits
  cases hfits with
  | branch untouched exit =>
    have hfolded : (w.graph.block b).folded.isSome = false := by
      rw [untouched.1, untouched.2]
      rfl
    have hpos : pre.length < pre.length + (region b body other).length := by
      rw [region, List.length_cons]
      omega
    have hlist : pre ++ ((branch b body other rest).ids ++ post) =
        pre ++ (region b body other ++ (rest.ids ++ post)) := by
      rw [ids_branch, List.append_assoc]
    have hnext : (pre ++ (region b body other ++ (rest.ids ++ post)))[
        pre.length + (region b body other).length]? =
        (rest.ids ++ post).head? := by
      rw [← List.append_assoc, ← List.length_append,
        List.getElem?_append_right (Nat.le_refl _), Nat.sub_self,
        List.head?_eq_getElem?]
    rw [h.told_nestedAt hw rfl, hfolded, h.extent?, hlist]
    simp only [Bool.false_eq_true, if_false, exit, Exit.isBranch, if_true,
      Option.filter_some, decide_eq_true hpos, hnext]
    split
    · rw [Partition.told_slice_bind, take_drop_middle]
    · rfl

end Layout.Sits

namespace Partition

variable {inner : Structurer} {nested : RegionStructurer} {list : List Nat}
    {i id : Nat}

theorem told_foldNested_of_none (n : Nat) (hid : list[i]? = some id)
    (h : (nestedAt inner nested list i id).told w = .ok (none, w')) :
    (foldNested inner nested (n + 1) i list).told w =
      (foldNested inner nested n (i + 1) list).told w' := by
  rw [foldNested, told_next?_bind, hid]
  exact told_bind_of_ok h

theorem told_foldNested_of_some (n : Nat) (hid : list[i]? = some id)
    {stop : Nat}
    {s : Section} (hlt : i < stop)
    (h : (nestedAt inner nested list i id).told w = .ok (some (stop, s), w')) :
    (foldNested inner nested (n + 1) i list).told w =
      (foldNested inner nested n (i + 1)
          (list.take (i + 1) ++ list.drop stop)).told
        { w' with graph := w'.graph.fold id s list[stop]? } := by
  rw [foldNested, told_next?_bind, hid]
  refine (told_bind_of_ok h).trans ?_
  simp only [if_neg (Nat.not_le.2 hlt)]
  rw [told_bind_of_ok (a := ()) (told_change.2 rfl), told_slice_bind,
    told_slice_bind, List.drop_zero, List.take_length]

/-- At the end of a region nothing is left to fold. -/
theorem told_foldNested_of_end (n : Nat) :
    (foldNested inner nested n list.length list).told w = .ok (list, w) := by
  cases n <;>
    rw [foldNested, told_next?_bind, List.getElem?_eq_none (Nat.le_refl _)] <;>
    rfl

end Partition

namespace Layout.Sits

variable {inner : Structurer} {nested : Partition.RegionStructurer} {size : Nat}

variable (inner nested) in
/-- Folding passes over straight-line code. -/
theorem told_foldNested_of_plain {l : Layout} (rest : Layout)
    {pre post : List Nat} {b : Nat} (h : l.Sits ctx g₀ w.graph pre post next)
    (hw : Sure ctx g₀ w) (hids : l.ids = b :: rest.ids)
    (hplain : (w.graph.exit b).isBranch = false) (fuel : Nat) :
    (Partition.foldNested inner nested (fuel + 1) pre.length
        (pre ++ (l.ids ++ post))).told w =
      (Partition.foldNested inner nested fuel (pre ++ [b]).length
        (pre ++ [b] ++ (rest.ids ++ post))).told w := by
  have hlist : pre ++ (l.ids ++ post) = pre ++ [b] ++ (rest.ids ++ post) := by
    simp [hids]
  have hid : (pre ++ (l.ids ++ post))[pre.length]? = some b := by
    rw [getElem?_middle, hids]
    rfl
  have hrun := h.told_nestedAt_of_not_branch inner nested hw
    (by rw [hids]; rfl) hplain
  rw [Partition.told_foldNested_of_none fuel hid hrun, hlist, List.length_append]
  rfl

/-- Folding the regions inside a layout leaves the layout `Layout.fold`. -/
structure Folds (ctx : Context) (g₀ : Graph) (inner : Structurer)
    (nested : Partition.RegionStructurer) (l : Layout) (pre post : List Nat)
    (next : Option Nat) (w w' : Told) : Prop where
  taken : Taken ctx g₀ w l.ids next w'
  fits : l.fold.Fits ctx g₀ w'.graph next
  runs :
    ∀ fuel,
    (Partition.foldNested inner nested (l.fold.ids.length + fuel) pre.length
      (pre ++ (l.ids ++ post))).told w =
    (Partition.foldNested inner nested fuel (pre.length + l.fold.ids.length)
      (pre ++ (l.fold.ids ++ post))).told w'

section Folds

variable {b : Nat} {body other rest : Layout} {pre post : List Nat}
    {w₁ w₂ : Told}

/-- Where a return or a jump ends a layout there is nothing to fold. -/
theorem folds_of_last {l : Layout} (h : l.Sits ctx g₀ w.graph pre post next)
    (hw : OnCourse ctx g₀ w) (hids : l.ids = [b]) (hfold : l.fold = l)
    (hplain : (w.graph.exit b).isBranch = false) :
    Folds ctx g₀ inner nested l pre post next w w := by
  refine ⟨.refl hw h.fits.within, hfold.symm ▸ h.fits, fun fuel => ?_⟩
  have hrun :=
    h.told_foldNested_of_plain inner nested stop hw.sure hids hplain fuel
  simpa [hfold, hids, ids, Nat.add_comm] using hrun

/-- Straight-line code stays in front of what is folded. -/
theorem folds_plain (h : (plain b rest).Sits ctx g₀ w.graph pre post next)
    (hw : OnCourse ctx g₀ w) (hruns : g₀.RunsTo ctx w.graph b (rest.first next))
    (hrest : Folds ctx g₀ inner nested rest (pre ++ [b]) post next w w') :
    Folds ctx g₀ inner nested (plain b rest) pre post next w w' := by
  have hb : b ∉ rest.ids := (List.nodup_cons.1 h.ascends.nodup).1
  refine ⟨hrest.taken.widen _ _ (List.subset_cons_self _ _)
    (fun t ht => .inr ht) h.fits.within, .plain ?_ hrest.fits, fun fuel => ?_⟩
  · rw [first_fold]
    exact hruns.congr (hrest.taken.others b hb)
  · have hrun := h.told_foldNested_of_plain inner nested rest hw.sure rfl
      (by rw [hruns.exit]; rfl) (rest.fold.ids.length + fuel)
    rw [hrest.runs] at hrun
    simpa [fold, ids, Nat.add_assoc, Nat.add_comm, Nat.add_left_comm] using hrun

/-- The last branch of a list is not folded, but what is inside it is. -/
theorem folds_branch_stop
    (h : (branch b body other stop).Sits ctx g₀ w.graph pre post next)
    (hw : OnCourse ctx g₀ w)
    (hbody : Folds ctx g₀ inner nested body (pre ++ [b]) other.ids next w w₁)
    (hother : Folds ctx g₀ inner nested other (pre ++ [b] ++ body.fold.ids)
      [] next w₁ w₂) :
    Folds ctx g₀ inner nested (branch b body other stop) pre post next w
      w₂ := by
  obtain ⟨rfl, hnodup, -⟩ := h.nodup_of_last
  obtain ⟨-, hinner, hpre⟩ := List.nodup_append.1 hnodup
  have hapart {t : Nat} (ht : t ∈ body.ids) : t ∉ other.ids := fun ht' =>
    (List.nodup_append.1 hinner).2.2 t ht t ht' rfl
  have hb (ids : List Nat) (hids : ids ⊆ body.ids ++ other.ids) : b ∉ ids :=
    fun hmem =>
      hpre b (by simp) b (hids hmem) rfl
  have hwide₁ := hbody.taken.widen ((branch b body other stop).ids) _
    (fun id hid => by simp [ids, hid]) (fun t ht => .inr ht) h.fits.within
  have hwide₂ := hother.taken.widen ((branch b body other stop).ids) _
    (fun id hid => by simp [ids, hid]) (fun t ht => .inr ht) hwide₁.within
  have hfold : (branch b body other stop).fold = branch b body.fold other.fold
      stop := if_pos rfl
  refine ⟨hwide₁.trans hwide₂, ?_, fun fuel => ?_⟩
  · have hfits := h.fits
    cases hfits with
    | @branch _ k _ _ _ _ untouched exit skip nonempty ends otherStops _
        _ fits =>
      have hsame : w₂.graph.block b = w.graph.block b :=
        (hother.taken.others b (hb _ (List.subset_append_right _ _))).trans
          (hbody.taken.others b (hb _ (List.subset_append_left _ _)))
      rw [hfold]
      refine .branch (k := k) ⟨hsame.trans untouched.1, untouched.2⟩ ?_ ?_
        (ids_fold_ne_nil nonempty) ?_ ((stops_fold _).trans otherStops)
        (hbody.fits.congr fun id hid => ?_) hother.fits
        (fits.congr fun id hid => absurd hid List.not_mem_nil)
      · rw [Graph.exit, hsame, head?_ids_fold]
        exact exit
      · rw [first_fold]
        exact skip
      · rw [stops_fold, leaves_fold]
        exact ends.imp (fun hends => ⟨by rw [hends.1]; rfl, hends.2⟩)
          fun hends => ⟨ids_fold_ne_nil hends.1, hends.2⟩
      · exact hother.taken.others id (hapart (body.ids_fold_sublist.subset hid))
  · have hlist : pre ++ ((branch b body other stop).ids ++ []) =
        pre ++ [b] ++ (body.ids ++ other.ids) := by simp [ids]
    have hlist₁ : pre ++ [b] ++ (body.fold.ids ++ other.ids) =
        pre ++ [b] ++ body.fold.ids ++ (other.ids ++ []) := by simp
    have hlist₂ : pre ++ [b] ++ body.fold.ids ++ (other.fold.ids ++ []) =
        pre ++ ((branch b body other stop).fold.ids ++ []) := by
          simp [hfold, ids]
    have hfuel : (branch b body other stop).fold.ids.length + fuel =
        body.fold.ids.length + (other.fold.ids.length + fuel) + 1 := by
      simp only [hfold, ids, List.length_cons, List.length_append,
        List.length_nil]
      omega
    have hend : (pre ++ [b] ++ body.fold.ids).length + other.fold.ids.length =
        pre.length + (branch b body other stop).fold.ids.length := by
      simp only [hfold, ids, List.length_cons, List.length_append,
        List.length_nil]
      omega
    have hid : (pre ++ ((branch b body other stop).ids ++ []))[pre.length]? =
        some b := by
      rw [getElem?_middle]
      rfl
    have hplace : pre.length + 1 = (pre ++ [b]).length := by simp
    rw [hfuel,
      Partition.told_foldNested_of_none _ hid
        (h.told_nestedAt_branch inner nested hw.sure),
      hlist, hplace, hbody.runs, hlist₁, ← List.length_append, hother.runs,
      hlist₂, hend]

end Folds

end Layout.Sits

/-- A branch is folded into its first block. -/
structure Folded (ctx : Context) (g₀ : Graph) (w : Told) (region : List Nat)
    (b next : Nat) (s : Section) (w₁ : Told) : Prop where
  assembles : Assembles ctx g₀ [s]
  taken : Taken ctx g₀ w region (some next) w₁
  inside : b < w₁.graph.blocks.length
  mem : b ∈ region

namespace Folded

variable {region : List Nat} {b n : Nat} {s : Section} {w₁ : Told}

/-- The other blocks stay as they are. -/
theorem others (h : Folded ctx g₀ w region b n s w₁) {id : Nat}
    (hid : id ∉ region) :
    (w₁.graph.fold b s (some n)).block id = w.graph.block id := by
  have hne : b ≠ id := fun heq => hid (heq ▸ h.mem)
  rw [Graph.fold, w₁.graph.block_modify_of_ne _ hne]
  exact h.taken.others id hid

theorem block (h : Folded ctx g₀ w region b n s w₁) :
    (w₁.graph.fold b s (some n)).block b =
    { w₁.graph.block b with folded := some s, exit := .falls (some n) } :=
  w₁.graph.block_modify_self _ h.inside

/-- The block runs to what comes after its region. -/
theorem runsTo (h : Folded ctx g₀ w region b n s w₁) :
    g₀.RunsTo ctx (w₁.graph.fold b s (some n)) b (some n) := by
  refine ⟨by rw [Graph.exit, h.block], fun hnone => ?_, fun s' hs' => ?_⟩
  · rw [h.block] at hnone
    cases hnone
  · rw [h.block] at hs'
    cases hs'
    exact h.assembles

/-- Nothing but the region has changed. -/
theorem widen (h : Folded ctx g₀ w region b n s w₁) {ids : List Nat}
    {next : Option Nat} (hsub : region ⊆ ids) (hn : n ∈ ids)
    (hwithin : w.graph.Within ids next) :
    Taken ctx g₀ w ids next
      { w₁ with graph := w₁.graph.fold b s (some n) } := by
  have hwide :=
    h.taken.widen ids next hsub (fun t ht => .inl (Option.some.inj ht ▸ hn))
      hwithin
  exact hwide.trans
    (Taken.fold hwide.course hwide.within (hsub h.mem) h.inside (.inl hn) s)

end Folded

namespace Layout.Sits

variable {inner : Structurer} {nested : Partition.RegionStructurer}
    {size b n : Nat}
  {body other rest : Layout} {pre post : List Nat} {s : Section} {w₁ w₂ : Told}

/-- What comes after a branch is not in its region. -/
theorem not_mem_region
    (h : (branch b body other rest).Sits ctx g₀ w.graph pre post next)
    {id : Nat} (hid : id ∈ rest.ids) : id ∉ region b body other :=
      fun hmem => by
  have hnodup := (List.nodup_append.1 h.nodup).2.1
  rw [ids_branch, List.append_assoc] at hnodup
  exact (List.nodup_append.1 hnodup).2.2 id hmem id
    (List.mem_append_left _ hid) rfl

/-- Folding a branch changes only the blocks of its layout. -/
theorem taken_of_folded
    (h : (branch b body other rest).Sits ctx g₀ w.graph pre post next)
    {xs : List Nat} (hids : rest.ids = n :: xs)
    (hfolded : Folded ctx g₀ w (region b body other) b n s w₁) :
    Taken ctx g₀ w (branch b body other rest).ids next
      { w₁ with graph := w₁.graph.fold b s (some n) } :=
  hfolded.widen (fun id hid => by simp [ids_branch, hid]) (by simp [ids, hids])
    h.fits.within

/-- What comes after a branch that has been folded still sits in its place. -/
theorem of_folded
    (h : (branch b body other rest).Sits ctx g₀ w.graph pre post next)
    (hfits : rest.Fits ctx g₀ w.graph next) (hn : rest.first next = some n)
    (hfolded : Folded ctx g₀ w (region b body other) b n s w₁) :
    rest.Sits ctx g₀ (w₁.graph.fold b s (some n)) (pre ++ [b]) post next := by
  refine h.of_front (ids_branch b body other rest) (List.cons_ne_nil _ _) h.ends
    (List.singleton_sublist.2 List.mem_cons_self)
    (hfits.congr fun id hid => hfolded.others (h.not_mem_region hid))
    (fun id hid => hfolded.others hid) fun id hid t ht => ?_
  obtain rfl := List.mem_singleton.1 hid
  rw [Graph.successors, Graph.exit, hfolded.block] at ht
  obtain rfl := List.mem_singleton.1 ht
  exact .inr hn

/-- A branch that something comes after is folded. -/
theorem folds_branch
    (h : (branch b body other rest).Sits ctx g₀ w.graph pre post next)
    (hw : OnCourse ctx g₀ w) {xs : List Nat} (hids : rest.ids = n :: xs)
    (hrun : (nested false (region b body other) (some n)).told w = .ok (s, w₁))
    (hfolded : Folded ctx g₀ w (region b body other) b n s w₁)
    (hrest : Folds ctx g₀ inner nested rest (pre ++ [b]) post next
      { w₁ with graph := w₁.graph.fold b s (some n) } w₂) :
    Folds ctx g₀ inner nested (branch b body other rest) pre post next w
      w₂ := by
  have hne : rest ≠ stop := fun heq => by
    rw [heq] at hids
    cases hids
  have hn : rest.first next = some n := by simp [first, hids]
  have hfold : (branch b body other rest).fold = plain b rest.fold := if_neg hne
  have hwide := h.taken_of_folded hids hfolded
  have hwide₂ := hrest.taken.widen ((branch b body other rest).ids) _
    (fun id hid => by simp [ids, hid]) (fun t ht => .inr ht) hwide.within
  have hb : b ∉ rest.ids := fun hmem => h.not_mem_region hmem List.mem_cons_self
  refine ⟨hwide.trans hwide₂, ?_, fun fuel => ?_⟩
  · rw [hfold]
    refine .plain ?_ hrest.fits
    rw [first_fold, hn]
    exact hfolded.runsTo.congr (hrest.taken.others b hb)
  · have hlist : pre ++ ((branch b body other rest).ids ++ post) =
        pre ++ (region b body other ++ (rest.ids ++ post)) := by
      rw [ids_branch, List.append_assoc]
    have hid : (pre ++ ((branch b body other rest).ids ++ post))[pre.length]? =
        some b := by
      rw [getElem?_middle]
      rfl
    have hfound : (Partition.nestedAt inner nested
        (pre ++ ((branch b body other rest).ids ++ post)) pre.length b).told w =
        .ok (some (pre.length + (region b body other).length, s), w₁) := by
      rw [h.told_nestedAt_branch inner nested hw.sure, hids]
      exact Partition.told_bind_of_ok hrun
    have hpos : pre.length + 1 ≤ pre.length + (region b body other).length := by
      rw [region, List.length_cons]
      omega
    have htake : (pre ++ (region b body other ++ (rest.ids ++ post))).take
        (pre.length + 1) = pre ++ [b] := by
      rw [region, List.cons_append, ← List.singleton_append (x := b),
        ← List.append_assoc]
      exact List.take_left' (by simp)
    have hdrop : (pre ++ (region b body other ++ (rest.ids ++ post))).drop
        (pre.length + (region b body other).length) = rest.ids ++ post := by
      rw [← List.append_assoc, ← List.length_append, List.drop_left]
    have hafter : (pre ++ (region b body other ++ (rest.ids ++ post)))[
        pre.length + (region b body other).length]? = some n := by
      rw [← List.head?_drop, hdrop, hids]
      rfl
    have hfuel : (branch b body other rest).fold.ids.length + fuel =
        rest.fold.ids.length + fuel + 1 := by
      simp only [hfold, ids, List.length_cons]
      omega
    have hend : (pre ++ [b]).length + rest.fold.ids.length =
        pre.length + (branch b body other rest).fold.ids.length := by
      simp only [hfold, ids, List.length_cons, List.length_append,
        List.length_nil]
      omega
    have hplace : pre.length + 1 = (pre ++ [b]).length := by simp
    rw [hfuel, Partition.told_foldNested_of_some _ hid hpos hfound,
      hlist, hafter, htake, hdrop, hplace, hrest.runs, hend, hfold]
    simp [ids]

variable (inner) in
/-- **Folding.**  When the regions inside a layout can be taken apart, folding
them leaves the layout `Layout.fold`. -/
theorem exists_folds (hnested : TakesRegions ctx g₀ size nested) {l : Layout}
    (h : l.Sits ctx g₀ w.graph pre post next) (hw : OnCourse ctx g₀ w)
    (hsize : l.ids.length ≤ size + 1) :
    ∃ w', Folds ctx g₀ inner nested l pre post next w w' := by
  induction l generalizing pre post next w with
  | stop =>
    exact ⟨w, .refl hw h.fits.within, h.fits, fun fuel => by simp [fold, ids]⟩
  | leave j =>
    have hfits := h.fits
    cases hfits with
    | leave _ exit => exact ⟨w, folds_of_last h hw rfl rfl (by rw [exit]; rfl)⟩
  | ret r =>
    have hfits := h.fits
    cases hfits with
    | ret _ exit => exact ⟨w, folds_of_last h hw rfl rfl (by rw [exit]; rfl)⟩
  | plain b rest ih =>
    have hfits := h.fits
    cases hfits with
    | plain runs fits =>
      have hrest : rest.Sits ctx g₀ w.graph (pre ++ [b]) post next := by
        refine h.of_front rfl (List.cons_ne_nil _ _) h.ends
          (List.Sublist.refl _) fits (fun _ _ => rfl) fun id hid t ht => ?_
        obtain rfl := List.mem_singleton.1 hid
        rw [Graph.successors, runs.exit, Exit.successors,
          Option.mem_toList] at ht
        exact .inr ht
      simp only [ids, List.length_cons] at hsize
      obtain ⟨w', hfolds⟩ := ih hrest hw (by omega)
      exact ⟨w', folds_plain h hw runs hfolds⟩
  | branch b body other rest ihBody ihOther ihRest =>
    simp only [ids, List.length_cons, List.length_append] at hsize
    by_cases hrest : rest = stop
    · subst hrest
      obtain ⟨w₁, hbody⟩ := ihBody h.of_body hw (by omega)
      have hsits :=
        h.of_other body.ids_fold_sublist hbody.taken.others hbody.taken.within
      obtain ⟨w₂, hother⟩ := ihOther hsits hbody.taken.course (by omega)
      exact ⟨w₂, folds_branch_stop h hw hbody hother⟩
    · have hfits := h.fits
      cases hfits with
      | branch untouched _ _ _ _ _ _ _ fits =>
        obtain ⟨n, hn⟩ := Option.isSome_iff_exists.1 fits.first_isSome
        obtain ⟨x, xs, hids⟩ :=
          List.exists_cons_of_ne_nil (mt ids_eq_nil_iff.1 hrest)
        obtain rfl : x = n := by simpa [first, hids] using hn
        have hregion : (region b body other).length ≤ size := by
          simp only [hids, region, List.length_cons,
            List.length_append] at hsize ⊢
          omega
        obtain ⟨s, w₁, hrun, hassembles, htaken⟩ :=
          hnested b body other x w hw (h.fits.of_branch hn)
            (h.ascends.of_branch hn) hregion
        have hfolded : Folded ctx g₀ w (region b body other) b x s w₁ := by
          refine ⟨hassembles, htaken, ?_, List.mem_cons_self⟩
          rw [htaken.course.sure.length, ← hw.sure.length]
          exact h.fits.lt_length b List.mem_cons_self
        obtain ⟨w₂, hfolds⟩ := ihRest (h.of_folded fits hn hfolded)
          (h.taken_of_folded hids hfolded).course (by omega)
        exact ⟨w₂, folds_branch h hw hids hrun hfolded hfolds⟩

end Layout.Sits

end Decompiler
