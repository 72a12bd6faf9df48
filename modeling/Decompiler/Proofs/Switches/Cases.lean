import Decompiler.Proofs.Bounds.Plans
import Mathlib.Data.List.Perm.Basic

/-!
# The cases of a switch

The layout of a switch sorts the places where its arms start, adds a place for
the default if no arm leads there, and cuts the list at them.  All blocks
outside the list have one place, its end, so several arms may start together;
the join may come before any of them, and then their runs are empty.  No arm
with keys is lost on the way, only a default without keys can be, and no run is
longer than up to the next place.

* `SwitchPlan.Serves`: a case with the keys of an arm and the start of its code.
* `SwitchPlan.LaysOut`: what a layout does for its switch, in any order of the
  arms.
* `SwitchPlan.laysOut_of_forward`: every switch whose edges lead forward is laid
  out.
-/

namespace Decompiler

namespace SwitchPlan

variable {g : Graph} {list : List Nat} {join default : Nat}
    {starts : List ArmStart}
  {arms : List SwitchArm} {cs : List CaseSpan}

/-- A case has the keys of an arm, in their order, and what it runs starts with
the block of the arm. -/
structure Serves (list : List Nat) (arm : SwitchArm) (c : CaseSpan) : Prop where
  keys : c.keys = arm.keys
  start : c.start < c.stop → c.start = list.idxOf arm.target

/-- The plan of a switch at position `i`: one case for each arm with keys, at
most one that is the default, and runs that follow one another between the
switch and the join. -/
structure LaysOut (list : List Nat) (i : Nat) (arms : List SwitchArm)
    (default : Nat) (plan : SwitchPlan) : Prop where
  /-- The arms with keys and the cases with keys are the same, up to their
  order. -/
  served : ∃ cs, cs.Perm (plan.cases.filter (·.keys ≠ [])) ∧
    List.Forall₂ (Serves list) (arms.filter (·.keys ≠ [])) cs
  /-- Every key comes as often as in the arms. -/
  keys : (plan.cases.flatMap (·.keys)).Perm (arms.flatMap (·.keys))
  default_le_one : plan.cases.countP (·.isDefault) ≤ 1
  /-- The default runs its own block, if anything. -/
  default_start : ∀ c ∈ plan.cases, c.isDefault = true → c.start < c.stop →
    c.start = list.idxOf default
  /-- Without a case for it the default leads to the join or beyond. -/
  default_missing : (∀ c ∈ plan.cases, c.isDefault = false) →
  plan.join ≤ list.idxOf default
  between : ∀ c ∈ plan.cases, i < c.start ∧ c.start ≤ c.stop ∧
  c.stop ≤ plan.join
  ascending : plan.cases.Pairwise fun c d => c.stop ≤ d.start

/-! ## Marking the default -/

/-- Two starts with the same keys at the same place. -/
def Alike (a b : ArmStart) : Prop := b.keys = a.keys ∧ b.position = a.position

theorem forall₂_filter_cons {a b : ArmStart} {as bs : List ArmStart}
    (h : Alike a b)
    (hrest : List.Forall₂ Alike (as.filter (·.keys ≠ []))
      (bs.filter (·.keys ≠ []))) :
    List.Forall₂ Alike ((a :: as).filter (·.keys ≠ []))
      ((b :: bs).filter (·.keys ≠ [])) := by
  by_cases hkeys : a.keys = []
  · rwa [List.filter_cons_of_neg (by simp [hkeys]), List.filter_cons_of_neg (by simp [h.1, hkeys])]
  · rw [List.filter_cons_of_pos (by simp [hkeys]),
      List.filter_cons_of_pos (by simp [h.1, hkeys])]
    exact .cons h hrest

/-- Marking the default leaves all arms with keys, their keys and their
places. -/
theorem forall₂_markDefault (list : List Nat) (default : Nat)
    (starts : List ArmStart) :
    List.Forall₂ Alike (starts.filter (·.keys ≠ []))
      ((markDefault list default starts).filter (·.keys ≠ [])) := by
  induction starts with
  | nil => exact .nil
  | cons a as ih =>
    rw [markDefault]
    split
    · exact forall₂_filter_cons ⟨rfl, rfl⟩
        (List.forall₂_same.2 fun _ _ => ⟨rfl, rfl⟩)
    · exact forall₂_filter_cons ⟨rfl, rfl⟩ ih

/-- Just one start is marked. -/
theorem countP_markDefault (list : List Nat) (default : Nat)
    (hnone : ∀ a ∈ starts, a.isDefault = false) :
    (markDefault list default starts).countP (·.isDefault) = 1 := by
  induction starts with
  | nil => rfl
  | cons a as ih =>
    obtain ⟨ha, has⟩ := List.forall_mem_cons.1 hnone
    rw [markDefault]
    split
    · have hrest : as.countP (·.isDefault) = 0 :=
        List.countP_eq_zero.2 (by simpa using has)
      rw [List.countP_cons_of_pos rfl, hrest]
    · rw [List.countP_cons_of_neg (by simp [ha]), ih has]

theorem countP_armStarts (list : List Nat) (arms : List SwitchArm)
    (default : Nat) :
    (armStarts list arms default).countP (·.isDefault) = 1 := by
  rw [armStarts, (Order.perm_sortOn _ _).countP_eq]
  refine countP_markDefault list default fun a ha => ?_
  obtain ⟨arm, _, rfl⟩ := List.mem_map.1 ha
  rfl

/-- The default starts where its block is, or where all blocks outside the list
are. -/
theorem position_of_isDefault {a : ArmStart}
    (ha : a ∈ armStarts list arms default) (hdefault : a.isDefault = true) :
    a.position = list.idxOf default := by
  obtain hplace | hget := place_of_isDefault ha hdefault
  · exact hplace
  · obtain ⟨-, hplace⟩ | ⟨arm, -, -, hplace⟩ := place_of_mem_armStarts ha
    · exact hplace
    · rw [hplace] at hget ⊢
      rw [eq_of_getElem?_idxOf hget]

/-! ## Arms and their cases -/

/-- An arm with keys has a case. -/
theorem filter_hasCase (join : Nat) (starts : List ArmStart) :
    (starts.filter (hasCase join)).filter (·.keys ≠ []) = starts.filter
      (·.keys ≠ []) := by
  rw [List.filter_filter]
  refine List.filter_congr fun a _ => ?_
  by_cases hkeys : a.keys = [] <;> simp [hasCase, hkeys]

/-- The cases with keys are those of the arms with keys. -/
theorem exists_serves (g : Graph) (list : List Nat) (arms : List SwitchArm)
    (default join : Nat) :
    ∃ cs,
      cs.Perm ((spans g list join (armStarts list arms default)).filter (·.keys ≠ [])) ∧
      List.Forall₂ (Serves list) (arms.filter (·.keys ≠ [])) cs := by
  -- the arms as they are marked, in the order of the arms
  let start (arm : SwitchArm) : ArmStart :=
    ⟨list.idxOf arm.target, arm.keys, false⟩
  let marked := markDefault list default (arms.map start)
  have harms :
      List.Forall₂ (fun arm a => a.keys = arm.keys ∧ a.position = list.idxOf arm.target)
      (arms.filter (·.keys ≠ [])) (marked.filter (·.keys ≠ [])) := by
    have hmarked := forall₂_markDefault list default (arms.map start)
    rwa [List.filter_map, List.forall₂_map_left_iff] at hmarked
  -- the cases with keys, in the order of the places
  have hcases :
      List.Forall₂ (CaseOf join)
      ((armStarts list arms default).filter (·.keys ≠ []))
      ((spans g list join (armStarts list arms default)).filter
        (·.keys ≠ [])) := by
    rw [← filter_hasCase join]
    exact List.rel_filter (fun a c hcase => by simp [hcase.keys])
      (forall₂_spans g list join (sorted_armStarts list arms default))
  have hperm : (marked.filter (·.keys ≠ [])).Perm
      ((armStarts list arms default).filter (·.keys ≠ [])) :=
    (Order.perm_sortOn (·.position) marked).symm.filter _
  obtain ⟨cs, hcs, hcsperm⟩ := List.perm_comp_forall₂ hperm hcases
  refine ⟨cs, hcsperm, forall₂_comp harms hcs fun arm a c hstart hcase => ?_⟩
  exact ⟨hcase.keys.trans hstart.1, fun hrun =>
    (hcase.start_eq hrun).trans hstart.2⟩

/-- Lists without the members that have no keys have the same keys. -/
theorem flatMap_keys_filter {α : Type} (keys : α → List Int32) (xs : List α) :
    (xs.filter (keys · ≠ [])).flatMap keys = xs.flatMap keys := by
  induction xs with
  | nil => rfl
  | cons x xs ih =>
    by_cases hkeys : keys x = []
    · rw [List.filter_cons_of_neg (by simp [hkeys]), ih, List.flatMap_cons,
        hkeys, List.nil_append]
    · rw [List.filter_cons_of_pos (by simp [hkeys]), List.flatMap_cons, ih,
        List.flatMap_cons]

/-- If arms and cases are the same up to their order, so are their keys. -/
theorem perm_keys_of_serves {cases : List CaseSpan}
    (hperm : cs.Perm (cases.filter (·.keys ≠ [])))
    (hserves : List.Forall₂ (Serves list) (arms.filter (·.keys ≠ [])) cs) :
    (cases.flatMap (·.keys)).Perm (arms.flatMap (·.keys)) := by
  have hkeys : (arms.filter (·.keys ≠ [])).flatMap (·.keys) = cs.flatMap
      (·.keys) := by
    rw [List.flatMap_def, List.flatMap_def,
      map_eq_of_forall₂ hserves fun _ _ _ _ hserve => hserve.keys.symm]
  rw [← flatMap_keys_filter (·.keys) cases, ← flatMap_keys_filter (·.keys) arms,
    hkeys]
  exact hperm.symm.flatMap_right _

/-- No run reaches into the next. -/
theorem ascending_spans (g : Graph) (list : List Nat) (join : Nat)
    (hsorted : starts.Pairwise (·.position ≤ ·.position)) :
    (spans g list join starts).Pairwise fun c d => c.stop ≤ d.start := by
  induction starts with
  | nil => exact .nil
  | cons a as ih =>
    have hrest := (List.pairwise_cons.1 hsorted).2
    rcases Nat.lt_or_ge a.position join with hlt | hge
    · obtain ⟨breaks, -, heq⟩ := spans_of_lt g list as hlt
      rw [heq]
      refine List.pairwise_cons.2 ⟨fun d hd => ?_, ih hrest⟩
      obtain ⟨b, hb, hcase⟩ := exists_caseOf hrest hd
      rw [hcase.start]
      refine Nat.le_trans ?_ (stopOf_le hrest hb)
      dsimp only
      split <;> omega
    · obtain ⟨-, -, heq⟩ | heq := spans_of_le g list as hge
      · rw [heq]
        exact ih hrest
      · rw [heq]
        refine List.pairwise_cons.2 ⟨fun d hd => ?_, ih hrest⟩
        obtain ⟨b, hb, hcase⟩ := exists_caseOf hrest hd
        have hle := (List.pairwise_cons.1 hsorted).1 b hb
        rw [hcase.start]
        exact Nat.le_min.2 ⟨Nat.le_trans hge hle, Nat.le_refl join⟩

/-- As many cases as arms are marked, or fewer. -/
theorem countP_spans_le (g : Graph) (list : List Nat) (join : Nat)
    (hsorted : starts.Pairwise (·.position ≤ ·.position)) :
    (spans g list join starts).countP (·.isDefault) ≤ starts.countP
      (·.isDefault) := by
  have hmarks : (starts.filter (hasCase join)).map (·.isDefault) =
      (spans g list join starts).map (·.isDefault) :=
    map_eq_of_forall₂ (forall₂_spans g list join hsorted) fun _ _ _ _ hcase =>
      hcase.isDefault.symm
  calc (spans g list join starts).countP (·.isDefault)
    _ = ((spans g list join starts).map (·.isDefault)).countP id := by
        rw [List.countP_map]; rfl
    _ = (starts.filter (hasCase join)).countP (·.isDefault) := by
      rw [← hmarks, List.countP_map]; rfl
    _ ≤ starts.countP (·.isDefault) := (List.filter_sublist).countP_le

/-- A marked arm without a case starts at the join or beyond. -/
theorem join_le_of_missing {a : ArmStart}
    (hsorted : starts.Pairwise (·.position ≤ ·.position)) (ha : a ∈ starts)
    (hdefault : a.isDefault = true)
    (hmissing : ∀ c ∈ spans g list join starts, c.isDefault = false) :
    join ≤ a.position := by
  refine Nat.le_of_not_lt fun hlt => ?_
  have hcase : a ∈ starts.filter (hasCase join) :=
    List.mem_filter.2 ⟨ha, by simp [hasCase, hlt]⟩
  obtain ⟨c, hc, hof⟩ :=
    exists_of_forall₂ (forall₂_spans g list join hsorted) hcase
  rw [← hof.isDefault, hmissing c hc] at hdefault
  cases hdefault

/-- **Switch layout.**  In a sorted list, a switch whose edges lead to blocks
with greater numbers is laid out without losing a key and without runs that
overlap, whether or not some of the edges lead to one block. -/
theorem laysOut_of_forward {i id : Nat} (hasc : list.Pairwise (· ≤ ·))
    (hid : list[i]? = some id) (hexit : g.exit id = .selects arms default)
    (hforward : ∀ t ∈ g.successors id, id < t) :
    (g.switchPlan list i).LaysOut list i arms default := by
  have hsorted := sorted_armStarts list arms default
  have hbehind := lt_position_of_forward hasc hid hexit hforward
  have hjoin := lt_joinPosition (g := g) (List.getElem?_eq_some_iff.1 hid).1
    (armStarts_ne_nil list arms default) hbehind
  rw [Graph.switchPlan, hid, Option.map_some, hexit]
  dsimp only
  obtain ⟨cs, hperm, hserves⟩ := exists_serves g list arms default
    (joinPosition g list (armStarts list arms default))
  refine
    { served := ⟨cs, hperm, hserves⟩
      keys := perm_keys_of_serves hperm hserves
      default_le_one := Nat.le_trans (countP_spans_le g list _ hsorted)
        (Nat.le_of_eq (countP_armStarts list arms default))
      default_start := fun c hc hdefault hrun => ?_
      default_missing := fun hmissing => ?_
      between := fun c hc => ?_
      ascending := ascending_spans g list _ hsorted }
  · obtain ⟨a, ha, hcase⟩ := exists_caseOf hsorted hc
    exact (hcase.start_eq hrun).trans
      (position_of_isDefault ha (hcase.isDefault ▸ hdefault))
  · have hmarked : 0 < (armStarts list arms default).countP (·.isDefault) := by
      rw [countP_armStarts]
      exact Nat.zero_lt_one
    obtain ⟨a, ha, hdefault⟩ := List.countP_pos_iff.1 hmarked
    rw [← position_of_isDefault ha hdefault]
    exact join_le_of_missing hsorted ha hdefault hmissing
  · obtain ⟨a, ha, hcase⟩ := exists_caseOf hsorted hc
    exact ⟨hcase.start ▸ Nat.lt_min.2 ⟨hbehind a ha, hjoin⟩, hcase.range,
      hcase.stop⟩

/-- A switch whose arms come in no order, with its default between them: the
first case and the last that runs anything break to the join, the default falls
into the case behind it, and the keys of the first arm stay together. -/
theorem laysOut_of_forward_scattered :
    let g : Graph :=
      { blocks :=
        [.falls (some 1), .selects [⟨[7, 9], 5⟩, ⟨[1], 2⟩, ⟨[5], 7⟩] 4,
          .falls (some 3), .jumps 7, .falls (some 5), .falls (some 6), .jumps 7,
          .returns].map fun exit => { Block.blank with exit },
        labels := [] }
    let list := [1, 2, 3, 4, 5, 6, 7]
    let plan := g.switchPlan list 0
    (list.Pairwise (· ≤ ·) ∧ list[0]? = some 1 ∧
        g.exit 1 = .selects [⟨[7, 9], 5⟩, ⟨[1], 2⟩, ⟨[5], 7⟩] 4 ∧
        ∀ t ∈ g.successors 1, 1 < t) ∧
      plan = ⟨[⟨[1], false, 1, 2, true⟩, ⟨[], true, 3, 4, false⟩, ⟨[7, 9], false, 4, 5, true⟩,
        ⟨[5], false, 6, 6, true⟩], 6⟩ ∧
      plan.LaysOut list 0 [⟨[7, 9], 5⟩, ⟨[1], 2⟩, ⟨[5], 7⟩] 4 := by
  intro g list plan
  have hasc : list.Pairwise (· ≤ ·) := by decide
  have hforward : ∀ t ∈ g.successors 1, 1 < t := by decide
  exact ⟨⟨hasc, rfl, rfl,
    hforward⟩, by decide, laysOut_of_forward hasc rfl rfl hforward⟩

end SwitchPlan

end Decompiler
