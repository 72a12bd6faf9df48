import Decompiler.Proofs.Graph.Edges
import Decompiler.Proofs.Switches.Code
import Decompiler.Region.SwitchPlan
import Mathlib.Data.List.Pairwise
import Mathlib.Data.List.TakeWhile

/-!
# Values enter their cases

The layout of a switch gives every arm a run of blocks, in the order of the
list.  Once the code of each run has been found, a value that enters some code
enters it at the block that the graph sends it to: its arm starts there, and if
the run of the arm is empty it shares its place with the next one.  An arm that
leads to the join or beyond has no code.

* `SwitchPlan.CaseOf`, `SwitchPlan.forall₂_spans`: the case of each arm.
* `SwitchPlan.Filled`: a case holds the code of its run.
* `SwitchPlan.onward_eq_nil_or_first`: what is run from an arm on starts where
  the arm does.
* `SwitchPlan.filled_dropWhile`: skipping cases skips arms.
* `SwitchPlan.startsAt_entered`: a value enters where its edge leads.
-/

namespace Decompiler

namespace Section

/-- The block that a run of straight-line code and switches starts with. -/
def first? : List Section → Option Nat
  | .inline id :: _ | .switch id _ :: _ => some id
  | _ => none

theorem first?_append {xs : List Section} {t : Nat} (h : first? xs = some t)
    (ys : List Section) : first? (xs ++ ys) = some t := by
  cases xs with
  | nil => cases h
  | cons s xs => cases s <;> exact h

/-- Some code starts with a block, if there is any. -/
def StartsAt (t : Nat) (ss : List Section) : Prop :=
  ss = [] ∨ first? ss = some t

end Section

namespace SwitchPlan

variable {g : Graph} {list : List Nat} {join default : Nat} {a : ArmStart}
    {as : List ArmStart}
  {cs : List (Case Section)} {arms : List SwitchArm}

/-! ## Where arms start -/

theorem place_of_mem_markDefault {starts : List ArmStart}
    (h : a ∈ markDefault list default starts) :
    (a.keys = [] ∧ a.position = list.idxOf default ∨
        ∃ b ∈ starts, a.keys = b.keys ∧ a.position = b.position) ∧
      (a.isDefault = true → (∀ b ∈ starts, b.isDefault = false) →
        a.position = list.idxOf default ∨
          list[a.position]? = some default) := by
  induction starts with
  | nil =>
    rw [List.mem_singleton.1 h]
    exact ⟨.inl ⟨rfl, rfl⟩, fun _ _ => .inl rfl⟩
  | cons b bs ih =>
    have hplain (hmem : a ∈ b :: bs) (hdefault : a.isDefault = true)
        (hnone : ∀ b' ∈ b :: bs, b'.isDefault = false) :
        a.position = list.idxOf default ∨ list[a.position]? = some default := by
      rw [hnone a hmem] at hdefault
      cases hdefault
    rw [markDefault] at h
    split at h
    · rename_i hdefault
      rcases List.mem_cons.1 h with rfl | h
      · exact ⟨.inr ⟨b, List.mem_cons_self, rfl, rfl⟩, fun _ _ => .inr hdefault⟩
      · have hmem := List.mem_cons_of_mem b h
        exact ⟨.inr ⟨a, hmem, rfl, rfl⟩, hplain hmem⟩
    · rcases List.mem_cons.1 h with rfl | h
      · exact ⟨.inr ⟨a, List.mem_cons_self, rfl, rfl⟩,
          hplain List.mem_cons_self⟩
      · obtain ⟨hkeys, hplace⟩ := ih h
        refine ⟨hkeys.imp_right fun ⟨c, hc, heq⟩ =>
          ⟨c, List.mem_cons_of_mem _ hc, heq⟩,
          fun hdefault hnone => ?_⟩
        exact hplace hdefault fun c hc => hnone c (List.mem_cons_of_mem _ hc)

/-- Marking the default leaves the keys of arms. -/
theorem exists_keys_markDefault (list : List Nat) (default : Nat)
    {starts : List ArmStart} (h : a ∈ starts) :
    ∃ b ∈ markDefault list default starts, b.keys = a.keys := by
  induction starts with
  | nil => cases h
  | cons b bs ih =>
    rw [markDefault]
    split
    · rcases List.mem_cons.1 h with rfl | h
      · exact ⟨_, List.mem_cons_self, rfl⟩
      · exact ⟨a, List.mem_cons_of_mem _ h, rfl⟩
    · rcases List.mem_cons.1 h with rfl | h
      · exact ⟨a, List.mem_cons_self, rfl⟩
      · obtain ⟨c, hc, heq⟩ := ih h
        exact ⟨c, List.mem_cons_of_mem _ hc, heq⟩

theorem sorted_armStarts (list : List Nat) (arms : List SwitchArm)
    (default : Nat) :
    (armStarts list arms default).Pairwise (·.position ≤ ·.position) :=
  Order.pairwise_sortOn _ _

/-- A start is that of an arm, or of the default without keys. -/
theorem place_of_mem_armStarts (h : a ∈ armStarts list arms default) :
    a.keys = [] ∧ a.position = list.idxOf default ∨
      ∃ arm ∈ arms, a.keys = arm.keys ∧ a.position = list.idxOf arm.target := by
  have hmem := (Order.perm_sortOn _ _).mem_iff.1 h
  refine (place_of_mem_markDefault hmem).1.imp_right fun ⟨b, hb, hkeys, hposition⟩ => ?_
  obtain ⟨arm, harm, rfl⟩ := List.mem_map.1 hb
  exact ⟨arm, harm, hkeys, hposition⟩

theorem position_le_length (h : a ∈ armStarts list arms default) :
    a.position ≤ list.length := by
  obtain ⟨_, hposition⟩ | ⟨arm, _, _, hposition⟩ := place_of_mem_armStarts h <;>
    exact hposition ▸ List.idxOf_le_length

/-- The default starts at its block. -/
theorem place_of_isDefault (h : a ∈ armStarts list arms default)
    (hdefault : a.isDefault = true) :
    a.position = list.idxOf default ∨ list[a.position]? = some default := by
  have hmem := (Order.perm_sortOn _ _).mem_iff.1 h
  refine (place_of_mem_markDefault hmem).2 hdefault fun b hb => ?_
  obtain ⟨arm, _, rfl⟩ := List.mem_map.1 hb
  rfl

/-- Every key of an arm has a start. -/
theorem exists_start_of_mem (list : List Nat) (default : Nat) {arm : SwitchArm}
    (harm : arm ∈ arms) :
    ∃ a ∈ armStarts list arms default, a.keys = arm.keys := by
  have hstart : (⟨list.idxOf arm.target, arm.keys, false⟩ : ArmStart) ∈
      arms.map fun a => ⟨list.idxOf a.target, a.keys, false⟩ :=
    List.mem_map_of_mem (f := fun a : SwitchArm =>
      (⟨list.idxOf a.target, a.keys, false⟩ : ArmStart)) harm
  obtain ⟨b, hb, hkeys⟩ := exists_keys_markDefault list default hstart
  exact ⟨b, (Order.perm_sortOn _ _).mem_iff.2 hb, hkeys⟩

/-- A block is at its position in a list, if it is in the list. -/
theorem eq_of_getElem?_idxOf {t s : Nat} (h : list[list.idxOf t]? = some s) :
    s = t := by
  obtain ⟨hlt, heq⟩ := List.getElem?_eq_some_iff.1 h
  rw [← heq, List.getElem_idxOf hlt]

/-! ## The runs of cases -/

/-- Where the run of an arm ends, a last jump included. -/
def stopOf (join : Nat) (as : List ArmStart) : Nat :=
  ((as.head?.map (·.position)).map (min join)).getD join

/-- A case holds the code of its run. -/
structure Filled (list : List Nat) (span : CaseSpan) (c : Case Section) :
    Prop where
  keys : c.keys = span.keys
  isDefault : c.isDefault = span.isDefault
  breaks : c.breaks = span.breaks
  starts : span.start < span.stop → span.start < list.length →
    ∃ t, list[span.start]? = some t ∧ Section.first? c.body = some t
  empty : ¬ span.start < span.stop → c.body = []

/-- The case of an arm whose code comes before the join. -/
theorem spans_of_lt (g : Graph) (list : List Nat) (as : List ArmStart)
    (h : a.position < join) :
    ∃ breaks : Bool,
    (breaks = true → a.position < stopOf join as) ∧
    spans g list join (a :: as) =
      ⟨a.keys, a.isDefault, a.position,
        if breaks then stopOf join as - 1 else stopOf join as, breaks⟩ ::
        spans g list join as := by
  refine ⟨_, fun hbreaks => ?_, by rw [spans, if_neg (Nat.not_le.2 h)]; rfl⟩
  simp only [Bool.and_eq_true, decide_eq_true_eq] at hbreaks
  exact hbreaks.1

/-- The case of an arm without code of its own. -/
theorem spans_of_le (g : Graph) (list : List Nat) (as : List ArmStart)
    (h : join ≤ a.position) :
    (a.isDefault = true ∧ a.keys = [] ∧
        spans g list join (a :: as) = spans g list join as) ∨
      spans g list join (a :: as) =
        ⟨a.keys, a.isDefault, join, join, true⟩ :: spans g list join as := by
  rw [spans, if_pos h]
  by_cases hdefault : (a.isDefault && a.keys.isEmpty) = true
  · refine .inl ?_
    rw [Bool.and_eq_true, List.isEmpty_iff] at hdefault
    exact ⟨hdefault.1, hdefault.2, by simp [hdefault]⟩
  · exact .inr (by simp only [hdefault]; rfl)

/-- An arm with keys has a case. -/
theorem spans_ne_nil (h : a.keys ≠ []) : spans g list join (a :: as) ≠ [] := by
  rcases Nat.lt_or_ge a.position join with hlt | hge
  · obtain ⟨_, _, heq⟩ := spans_of_lt g list as hlt
    rw [heq]
    exact List.cons_ne_nil _ _
  · obtain ⟨_, hkeys, _⟩ | heq := spans_of_le g list as hge
    · exact absurd hkeys h
    · rw [heq]
      exact List.cons_ne_nil _ _

/-- Whether an arm has a case.  There is none for a default without keys that
has nothing to run in front of the join. -/
def hasCase (join : Nat) (a : ArmStart) : Bool :=
  decide (a.position < join) || !(a.isDefault && a.keys.isEmpty)

/-- The case of an arm: its run starts where the arm does, or at the join if
that comes first, and goes up to the join at most. -/
structure CaseOf (join : Nat) (a : ArmStart) (c : CaseSpan) : Prop where
  keys : c.keys = a.keys
  isDefault : c.isDefault = a.isDefault
  start : c.start = min a.position join
  range : c.start ≤ c.stop
  stop : c.stop ≤ join

/-- What a case runs starts where the arm does. -/
theorem CaseOf.start_eq {c : CaseSpan} (h : CaseOf join a c)
    (hrun : c.start < c.stop) : c.start = a.position := by
  have hstart := h.start
  have hstop := h.stop
  omega

/-- The run of an arm ends before the arms behind it start. -/
theorem stopOf_le (hsorted : as.Pairwise (·.position ≤ ·.position))
    {b : ArmStart} (hb : b ∈ as) : stopOf join as ≤ min b.position join := by
  cases as with
  | nil => cases hb
  | cons a as =>
    have hle : a.position ≤ b.position := by
      rcases List.mem_cons.1 hb with rfl | hb
      · exact Nat.le_refl _
      · exact (List.pairwise_cons.1 hsorted).1 b hb
    change min join a.position ≤ min b.position join
    omega

theorem stopOf_le_join (join : Nat) (as : List ArmStart) :
    stopOf join as ≤ join := by
  cases as with
  | nil => exact Nat.le_refl join
  | cons a as => exact Nat.min_le_left join a.position

/-- The run of an arm in front of the join does not end before it starts. -/
theorem le_stopOf (hsorted : (a :: as).Pairwise (·.position ≤ ·.position))
    (hlt : a.position < join) : a.position ≤ stopOf join as := by
  cases as with
  | nil => exact Nat.le_of_lt hlt
  | cons b bs =>
    exact Nat.le_min.2
      ⟨Nat.le_of_lt hlt, (List.pairwise_cons.1 hsorted).1 b List.mem_cons_self⟩

/-- Every arm but a default without keys and run has its case, in the order of
the arms. -/
theorem forall₂_spans (g : Graph) (list : List Nat) (join : Nat)
    (hsorted : as.Pairwise (·.position ≤ ·.position)) :
    List.Forall₂ (CaseOf join) (as.filter (hasCase join))
      (spans g list join as) := by
  induction as with
  | nil => exact .nil
  | cons a as ih =>
    have hrest := ih (List.pairwise_cons.1 hsorted).2
    rcases Nat.lt_or_ge a.position join with hlt | hge
    · obtain ⟨breaks, hbreaks, heq⟩ := spans_of_lt g list as hlt
      have hlow := le_stopOf hsorted hlt
      have hhigh := stopOf_le_join join as
      rw [heq, List.filter_cons_of_pos (by simp [hasCase, hlt])]
      refine .cons ⟨rfl, rfl, (Nat.min_eq_left (Nat.le_of_lt hlt)).symm, ?_, ?_⟩
        hrest
      · dsimp only
        split
        · exact Nat.le_sub_one_of_lt (hbreaks ‹_›)
        · exact hlow
      · dsimp only
        split <;> omega
    · have hjoin : ¬ a.position < join := Nat.not_lt.2 hge
      rw [spans, if_pos hge]
      by_cases hbare : (a.isDefault && a.keys.isEmpty) = true
      · rw [List.filter_cons_of_neg (by simp [hasCase, hjoin, hbare]),
          if_pos hbare]
        exact hrest
      · rw [List.filter_cons_of_pos (by simp [hasCase, hjoin, hbare]),
          if_neg hbare]
        exact .cons ⟨rfl, rfl, (Nat.min_eq_right hge).symm, Nat.le_refl _,
          Nat.le_refl _⟩ hrest

/-- Arms at the join or beyond have cases that break at once. -/
theorem breaks_of_le (h : ∀ a ∈ as, join ≤ a.position)
    (hfilled : List.Forall₂ (Filled list) (spans g list join as) cs) :
    ∀ c ∈ cs, c.body = [] ∧ c.breaks = true := by
  induction as generalizing cs with
  | nil =>
    cases hfilled
    simp
  | cons a as ih =>
    have hrest : ∀ b ∈ as, join ≤ b.position :=
      fun b hb => h b (List.mem_cons_of_mem _ hb)
    obtain ⟨_, _, heq⟩ | heq := spans_of_le g list as (h a List.mem_cons_self)
    · exact ih hrest (heq ▸ hfilled)
    · rw [heq] at hfilled
      cases hfilled with
      | cons hc hcs =>
        refine List.forall_mem_cons.2
          ⟨⟨hc.empty (Nat.lt_irrefl join), hc.breaks⟩, ih hrest hcs⟩

theorem onward_eq_nil (h : ∀ c ∈ cs, c.body = [] ∧ c.breaks = true) :
    Case.onward cs = [] := by
  cases cs with
  | nil => rfl
  | cons c cs =>
    obtain ⟨hbody, hbreaks⟩ := h c List.mem_cons_self
    simp [Case.onward, hbody, hbreaks]

/-- An arm before the join either has code, or has a case that breaks at once,
or falls into the next arm, which starts at the same place. -/
theorem cases_of_lt (hjoin : join ≤ list.length) (hlt : a.position < join)
    (hsorted : (a :: as).Pairwise (·.position ≤ ·.position))
    (hfilled : List.Forall₂ (Filled list) (spans g list join (a :: as)) cs) :
    ∃ c cs', cs = c :: cs' ∧ c.keys = a.keys ∧ c.isDefault = a.isDefault ∧
      List.Forall₂ (Filled list) (spans g list join as) cs' ∧
      ((∃ t, list[a.position]? = some t ∧ Section.first? c.body = some t) ∨
        c.body = [] ∧
          (c.breaks = true ∨ ∃ b bs, as = b :: bs ∧
            b.position = a.position)) := by
  obtain ⟨breaks, hbreaks, heq⟩ := spans_of_lt g list as hlt
  rw [heq] at hfilled
  cases hfilled with
  | @cons _ c _ cs' hc hcs =>
    refine ⟨c, cs', rfl, hc.keys, hc.isDefault, hcs, ?_⟩
    by_cases hrun : a.position < if breaks then stopOf join as - 1
      else stopOf join as
    · exact .inl (hc.starts hrun (Nat.lt_of_lt_of_le hlt hjoin))
    · refine .inr ⟨hc.empty hrun, ?_⟩
      cases breaks with
      | true => exact .inl hc.breaks
      | false =>
        refine .inr ?_
        simp only [Bool.false_eq_true, if_false] at hrun
        cases as with
        | nil => exact absurd hlt hrun
        | cons b bs =>
          have hle := (List.pairwise_cons.1 hsorted).1 b List.mem_cons_self
          have hstop : stopOf join (b :: bs) = min join b.position := rfl
          exact ⟨b, bs, rfl, by omega⟩

/-- What is run from an arm on starts where the arm does. -/
theorem onward_eq_nil_or_first (hjoin : join ≤ list.length)
    (hsorted : (a :: as).Pairwise (·.position ≤ ·.position))
    (hfilled : List.Forall₂ (Filled list) (spans g list join (a :: as)) cs) :
    Case.onward cs = [] ∨
      ∃ t, list[a.position]? = some t ∧
        Section.first? (Case.onward cs) = some t := by
  induction as generalizing a cs with
  | nil =>
    rcases Nat.lt_or_ge a.position join with hlt | hge
    · obtain ⟨c, cs', rfl, _, _, _,
          ⟨t, ht, hfirst⟩ | ⟨hbody, hbreaks | ⟨_, _, hnil, _⟩⟩⟩ :=
        cases_of_lt hjoin hlt hsorted hfilled
      · exact .inr ⟨t, ht, Section.first?_append hfirst _⟩
      · exact .inl (by simp [Case.onward, hbody, hbreaks])
      · cases hnil
    · exact .inl (onward_eq_nil (breaks_of_le (by simpa using hge) hfilled))
  | cons b bs ih =>
    obtain ⟨hle, hrest⟩ := List.pairwise_cons.1 hsorted
    rcases Nat.lt_or_ge a.position join with hlt | hge
    · obtain ⟨c, cs', rfl, _, _, hcs, ⟨t, ht, hfirst⟩ | ⟨hbody, hnext⟩⟩ :=
        cases_of_lt hjoin hlt hsorted hfilled
      · exact .inr ⟨t, ht, Section.first?_append hfirst _⟩
      · by_cases hbreaks : c.breaks = true
        · exact .inl (by simp [Case.onward, hbody, hbreaks])
        · obtain ⟨_, _, hcons, hposition⟩ := hnext.resolve_left hbreaks
          cases hcons
          have honward : Case.onward (c :: cs') = Case.onward cs' := by
            simp [Case.onward, hbody, hbreaks]
          rw [honward, ← hposition]
          exact ih hrest hcs
    · refine .inl (onward_eq_nil (breaks_of_le (fun d hd => ?_) hfilled))
      rcases List.mem_cons.1 hd with rfl | hd
      · exact hge
      · exact Nat.le_trans hge (hle d hd)

/-- Skipping cases skips arms, up to an arm that has no case: then there is no
code to run any more. -/
theorem filled_dropWhile (skip : List Int32 → Bool → Bool)
    (hjoin : join ≤ list.length)
    (hsorted : as.Pairwise (·.position ≤ ·.position))
    (hfilled : List.Forall₂ (Filled list) (spans g list join as) cs) :
    List.Forall₂ (Filled list)
        (spans g list join (as.dropWhile fun a => skip a.keys a.isDefault))
        (cs.dropWhile fun c => skip c.keys c.isDefault) ∨
      skip [] true = false ∧
        Case.onward (cs.dropWhile fun c => skip c.keys c.isDefault) = [] := by
  induction as generalizing cs with
  | nil =>
    cases hfilled
    exact .inl .nil
  | cons a as ih =>
    obtain ⟨hle, hrest⟩ := List.pairwise_cons.1 hsorted
    have hpast {c : Case Section} {cs' : List (Case Section)}
        (hkeys : c.keys = a.keys)
        (hdefault : c.isDefault = a.isDefault) (hcs : cs = c :: cs')
        (hfilled' : List.Forall₂ (Filled list) (spans g list join as) cs') :
        List.Forall₂ (Filled list)
            (spans g list join
              ((a :: as).dropWhile fun a => skip a.keys a.isDefault))
            (cs.dropWhile fun c => skip c.keys c.isDefault) ∨
          skip [] true = false ∧
            Case.onward (cs.dropWhile fun c => skip c.keys c.isDefault) =
            [] := by
      rw [hcs, List.dropWhile_cons, List.dropWhile_cons, hkeys, hdefault, ← hcs]
      by_cases hskip : skip a.keys a.isDefault = true
      · rw [if_pos hskip, if_pos hskip]
        exact ih hrest hfilled'
      · rw [if_neg hskip, if_neg hskip]
        exact .inl hfilled
    rcases Nat.lt_or_ge a.position join with hlt | hge
    · obtain ⟨c, cs', hcs, hkeys, hdefault, hfilled', _⟩ :=
        cases_of_lt hjoin hlt hsorted hfilled
      exact hpast hkeys hdefault hcs hfilled'
    · obtain ⟨hdefault, hkeys, heq⟩ | heq := spans_of_le g list as hge
      · rw [heq] at hfilled
        by_cases hskip : skip [] true = true
        · rw [List.dropWhile_cons, hkeys, hdefault, if_pos hskip]
          exact ih hrest hfilled
        · refine .inr ⟨by simpa using hskip, onward_eq_nil fun c hc => ?_⟩
          exact breaks_of_le (fun b hb => Nat.le_trans hge (hle b hb)) hfilled c
            ((List.dropWhile_suffix _).subset hc)
      · have hfilled' := heq ▸ hfilled
        cases hcs : cs with
        | nil =>
          rw [hcs] at hfilled'
          cases hfilled'
        | cons c cs' =>
          rw [hcs] at hfilled'
          cases hfilled' with
          | cons hc hrest' => exact hcs ▸ hpast hc.keys hc.isDefault hcs hrest'

/-- What is run from the first case on that is not skipped starts where the arm
of that case does. -/
theorem exists_start_of_dropWhile (skip : List Int32 → Bool → Bool)
    (hjoin : join ≤ list.length)
    (hsorted : as.Pairwise (·.position ≤ ·.position))
    (hfilled : List.Forall₂ (Filled list) (spans g list join as) cs) :
    Case.onward (cs.dropWhile fun c => skip c.keys c.isDefault) = [] ∨
      ∃ a ∈ as, skip a.keys a.isDefault = false ∧ ∃ t,
        list[a.position]? = some t ∧
        Section.first?
          (Case.onward (cs.dropWhile fun c => skip c.keys c.isDefault)) =
          some t := by
  obtain hrest | ⟨_, hnothing⟩ := filled_dropWhile skip hjoin hsorted hfilled
  · cases hdrop : as.dropWhile fun a => skip a.keys a.isDefault with
    | nil =>
      rw [hdrop] at hrest
      exact .inl (onward_eq_nil (breaks_of_le (by simp) hrest))
    | cons a rest =>
      have hskip : skip a.keys a.isDefault = false := by
        have hhead :=
          List.head?_dropWhile_not (fun a => skip a.keys a.isDefault) as
        rw [hdrop] at hhead
        simpa using hhead
      have hmem : a ∈ as :=
        (List.dropWhile_suffix _).subset (hdrop ▸ List.mem_cons_self)
      rw [hdrop] at hrest
      have hlater := hdrop ▸ hsorted.sublist (List.dropWhile_sublist _)
      exact (onward_eq_nil_or_first hjoin hlater hrest).imp_right fun hfirst =>
        ⟨a, hmem, hskip, hfirst⟩
  · exact .inl hnothing

/-- A value that is listed enters the first case that lists it. -/
theorem entered_of_mem (hjoin : join ≤ list.length)
    (hsorted : as.Pairwise (·.position ≤ ·.position))
    (hfilled : List.Forall₂ (Filled list) (spans g list join as) cs)
    {value : Int32} (ha : a ∈ as) (hvalue : value ∈ a.keys) :
    Case.entered value cs = cs.dropWhile fun c => !c.keys.contains value := by
  obtain hrest | ⟨hskip, _⟩ :=
    filled_dropWhile (fun keys _ => !keys.contains value) hjoin hsorted hfilled
  · cases hcases : cs.dropWhile fun c => !c.keys.contains value with
    | cons c cs' => simp only [Case.entered, hcases]
    | nil =>
      rw [hcases, List.forall₂_nil_right_iff] at hrest
      cases hdrop : as.dropWhile fun a => !a.keys.contains value with
      | nil =>
        have hskip := List.dropWhile_eq_nil_iff.1 hdrop a ha
        simp [hvalue] at hskip
      | cons b bs =>
        have hhead :=
          List.head?_dropWhile_not (fun a => !a.keys.contains value) as
        rw [hdrop] at hhead hrest
        have hkey : value ∈ b.keys := by simpa using hhead
        exact absurd hrest (spans_ne_nil (List.ne_nil_of_mem hkey))
  · cases hskip

/-- A value that is not listed enters the default. -/
theorem entered_of_forall_not_mem (hjoin : join ≤ list.length)
    (hsorted : as.Pairwise (·.position ≤ ·.position))
    (hfilled : List.Forall₂ (Filled list) (spans g list join as) cs)
    {value : Int32} (hnone : ∀ a ∈ as, value ∉ a.keys) :
    Case.entered value cs = cs.dropWhile fun c => !c.isDefault := by
  have hdrop : (as.dropWhile fun a => !a.keys.contains value) = [] :=
    List.dropWhile_eq_nil_iff.2 fun a ha => by simpa using hnone a ha
  obtain hrest | ⟨hskip, _⟩ :=
    filled_dropWhile (fun keys _ => !keys.contains value) hjoin hsorted hfilled
  · rw [hdrop, spans, List.forall₂_nil_left_iff] at hrest
    simp only [Case.entered, hrest]
  · cases hskip

/-! ## The join -/

/-- A jump that tells the join leads into the list or to its end, past the
arms. -/
theorem bounds_of_mem_joins {last p : Nat} {starts : List ArmStart}
    (h : p ∈ joins g list last starts) : last ≤ p ∧ p ≤ list.length := by
  induction starts with
  | nil => cases h
  | cons a as ih =>
    cases as with
    | nil => cases h
    | cons b bs =>
      rw [joins] at h
      split at h
      · rcases List.mem_append.1 h with hjump | h
        · rw [Option.mem_toList] at hjump
          obtain ⟨hjump, hlast⟩ := Option.filter_eq_some_iff.1 hjump
          obtain ⟨t, _, rfl⟩ := Option.map_eq_some_iff.1 hjump
          exact ⟨of_decide_eq_true hlast, List.idxOf_le_length⟩
        · exact ih h
      · exact ih h

theorem joinPosition_le_length {starts : List ArmStart}
    (h : ∀ a ∈ starts, a.position ≤ list.length) :
    joinPosition g list starts ≤ list.length := by
  unfold joinPosition
  dsimp only
  split
  · rename_i hmax
    exact (bounds_of_mem_joins (List.max?_mem hmax)).2
  · rename_i p _ hlast
    exact h _ (List.mem_of_getLast? hlast)
  · exact Nat.le_refl _

/-- The arm that lists a key is found. -/
theorem find?_eq_some_of_mem
    (hapart : arms.Pairwise fun a c => ∀ key ∈ a.keys, key ∉ c.keys)
    {arm : SwitchArm} (harm : arm ∈ arms) {key : Int32}
    (hkey : key ∈ arm.keys) : arms.find? (·.keys.contains key) = some arm := by
  cases hfind : arms.find? (·.keys.contains key) with
  | none =>
    have hnot := List.find?_eq_none.1 hfind arm harm
    simp [hkey] at hnot
  | some arm' =>
    have hkey' := List.find?_some hfind
    rw [List.contains_iff_mem] at hkey'
    by_contra hne
    have : Std.Symm fun a c : SwitchArm => ∀ key ∈ a.keys, key ∉ c.keys :=
      ⟨fun a c h key hc ha => h key ha hc⟩
    exact hapart.forall harm (List.mem_of_find?_eq_some hfind)
      (fun heq => hne (by rw [heq])) key hkey hkey'

/-- The arms of a planned switch, its join, and the cases for them. -/
theorem exists_join {i : Nat}
    (hexit : list[i]?.map g.exit = some (.selects arms default))
    (hfilled : List.Forall₂ (Filled list) (g.switchPlan list i).cases cs) :
    ∃ join ≤ list.length,
      List.Forall₂ (Filled list)
        (spans g list join (armStarts list arms default)) cs := by
  rw [Graph.switchPlan, hexit] at hfilled
  exact ⟨_, joinPosition_le_length fun a => position_le_length, hfilled⟩

theorem not_mem_of_unlisted {value : Int32}
    (hunlisted : ∀ arm ∈ arms, value ∉ arm.keys) :
    ∀ a ∈ armStarts list arms default, value ∉ a.keys := fun a ha hvalue => by
  obtain ⟨hnil, _⟩ | ⟨arm, harm, heq, _⟩ := place_of_mem_armStarts ha
  · rw [hnil] at hvalue
    cases hvalue
  · exact hunlisted arm harm (heq ▸ hvalue)

/-- A value that no arm lists enters the default. -/
theorem entered_of_unlisted {i : Nat}
    (hexit : list[i]?.map g.exit = some (.selects arms default))
    (hfilled : List.Forall₂ (Filled list) (g.switchPlan list i).cases cs)
    {value : Int32} (hunlisted : ∀ arm ∈ arms, value ∉ arm.keys) :
    Case.entered value cs = cs.dropWhile fun c => !c.isDefault := by
  obtain ⟨join, hjoin, hfilled⟩ := exists_join hexit hfilled
  exact entered_of_forall_not_mem hjoin (sorted_armStarts list arms default)
    hfilled (not_mem_of_unlisted hunlisted)

/-- **Values enter their cases.**  What is run for a value starts at the block
that the switch sends the value to, if anything is run. -/
theorem startsAt_entered {i : Nat}
    (hexit : list[i]?.map g.exit = some (.selects arms default))
    (hapart : arms.Pairwise fun a c => ∀ key ∈ a.keys, key ∉ c.keys)
    (hfilled : List.Forall₂ (Filled list) (g.switchPlan list i).cases cs)
    (value : Int32) :
    ∃ t, (Exit.selects arms default).next? (.value value) = some t ∧
      Section.StartsAt t (Case.onward (Case.entered value cs)) := by
  obtain ⟨join, hjoin, hcases⟩ := exists_join hexit hfilled
  have hsorted := sorted_armStarts list arms default
  by_cases hlisted : ∃ arm ∈ arms, value ∈ arm.keys
  · obtain ⟨arm, harm, hkey⟩ := hlisted
    have hfound := find?_eq_some_of_mem hapart harm hkey
    obtain ⟨a, ha, hkeys⟩ := exists_start_of_mem list default harm
    refine ⟨arm.target, by simp only [Exit.next?, hfound, Option.elim_some], ?_⟩
    rw [entered_of_mem hjoin hsorted hcases ha (hkeys ▸ hkey)]
    refine (exists_start_of_dropWhile (fun keys _ => !keys.contains value)
      hjoin hsorted hcases).imp_right ?_
    rintro ⟨b, hb, hskip, t, ht, hfirst⟩
    have hvalue : value ∈ b.keys := by simpa using hskip
    obtain ⟨hnil, _⟩ | ⟨arm', harm', heq, hposition⟩ :=
      place_of_mem_armStarts hb
    · rw [hnil] at hvalue
      cases hvalue
    · cases hfound.symm.trans (find?_eq_some_of_mem hapart harm' (heq ▸ hvalue))
      rw [hposition] at ht
      rw [← eq_of_getElem?_idxOf ht]
      exact hfirst
  · have hunlisted : ∀ arm ∈ arms, value ∉ arm.keys := fun arm harm hkey =>
      hlisted ⟨arm, harm, hkey⟩
    have hfound : arms.find? (·.keys.contains value) = none :=
      List.find?_eq_none.2 fun arm harm hkey =>
        hunlisted arm harm (by simpa using hkey)
    refine ⟨default, by simp only [Exit.next?, hfound, Option.elim_none], ?_⟩
    rw [entered_of_unlisted hexit hfilled hunlisted]
    refine (exists_start_of_dropWhile (fun _ isDefault => !isDefault)
      hjoin hsorted hcases).imp_right ?_
    rintro ⟨b, hb, hskip, t, ht, hfirst⟩
    obtain hposition | hposition := place_of_isDefault hb (by simpa using hskip)
    · rw [hposition] at ht
      rw [← eq_of_getElem?_idxOf ht]
      exact hfirst
    · cases ht.symm.trans hposition
      exact hfirst

end SwitchPlan

end Decompiler
