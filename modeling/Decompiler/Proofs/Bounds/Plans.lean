import Decompiler.Proofs.Bounds.Checked
import Decompiler.Proofs.Catches.Layout
import Decompiler.Proofs.Graph.Cut
import Decompiler.Proofs.Lists
import Decompiler.Proofs.Region.Cuts
import Decompiler.Proofs.Switches.Layout

/-!
# Layouts stay in range

The layouts of try statements and switches are found by looking at positions of
a list of blocks.  The list is in order: it ascends, and every member is the
number of a block.  Then each position that is looked at is inside the list, and
the runs that are found lie inside it, so the checks change nothing.

* `InOrder`: lists in order.
* `Checked.tryPlan?_eq`, `TryPlan.Inside`: try statements.
* `Checked.switchPlan_eq`, `SwitchPlan.Inside`: switches, if their edges lead
  forward.
-/

namespace Decompiler

/-- Whether a list of block numbers ascends, all of them below a bound. -/
structure InOrder (n : Nat) (list : List Nat) : Prop where
  ascends : list.Pairwise (· < ·)
  below : ∀ id ∈ list, id < n

/-- Part of a list in order is in order. -/
theorem InOrder.sublist {n : Nat} {list part : List Nat} (h : InOrder n list)
    (hpart : part.Sublist list) : InOrder n part :=
  ⟨h.ascends.sublist hpart, fun id hid => h.below id (hpart.subset hid)⟩

/-- A slice of a list in order is in order. -/
theorem InOrder.slice {n : Nat} {list : List Nat} (h : InOrder n list)
    (start stop : Nat) : InOrder n ((list.take stop).drop start) :=
  h.sublist ((List.drop_sublist _ _).trans (List.take_sublist _ _))

namespace Checked

variable {g : Graph} {list : List Nat} {id : Nat}

/-! ## Checks that hold -/

/-- A condition that holds is no obstacle. -/
theorem demand_eq {c : Prop} [Decidable c] (h : c) : demand c = some () :=
  if_pos h

/-- A slice with its ends in order, inside its list, is what there is of it. -/
theorem slice_eq {start stop : Nat} (h : start ≤ stop)
    (h' : stop ≤ list.length) :
    slice list start stop = some ((list.take stop).drop start) := by
  rw [slice, demand_eq ⟨h, h'⟩]
  rfl

/-- The front of a list is a slice of it. -/
theorem slice_front {stop : Nat} (h : stop ≤ list.length) :
    slice list 0 stop = some (list.take stop) := slice_eq (Nat.zero_le stop) h

/-- The back of a list is a slice of it. -/
theorem slice_back {start : Nat} (h : start ≤ list.length) :
    slice list start list.length = some (list.drop start) := by
  rw [slice_eq h (Nat.le_refl _), List.take_length]

/-- Numbers of blocks pass as such. -/
theorem known_eq (h : ∀ id ∈ list, id < g.blocks.length) :
    known g list = some () := demand_eq h

/-- The exit of a block that there is can be read. -/
theorem exit_eq (h : id < g.blocks.length) : exit g id = some (g.exit id) := by
  rw [exit, Graph.block_mem h]
  rfl

/-- The jump at a position of a list can be read. -/
theorem jumpAt_eq (h : ∀ id ∈ list, id < g.blocks.length) {p : Nat}
    (hp : p < list.length) :
    jumpAt g list p = some (TryPlan.jumpTarget? g list p) := by
  rw [jumpAt, TryPlan.jumpTarget?, List.getElem?_eq_getElem hp]
  show (exit g list[p] >>= fun e => some e.jump?) = _
  rw [exit_eq (h _ (List.getElem_mem hp))]
  rfl

/-! ## Try statements -/

/-- Looking for the join of a try statement stays inside the list. -/
theorem bodyAndJoin_eq (h : ∀ id ∈ list, id < g.blocks.length) {stop : Nat}
    (hpos : 0 < stop) (hstop : stop < list.length) :
    bodyAndJoin g list stop = some (TryPlan.bodyAndJoin g list stop) := by
  rw [bodyAndJoin, demand_eq hpos, jumpAt_eq h (by omega), jumpAt_eq h hstop,
    TryPlan.bodyAndJoin]
  simp only [Option.bind_eq_bind, Option.bind_some]
  cases (TryPlan.jumpTarget? g list (stop - 1)).filter fun t =>
    decide (stop < list.idxOf t) with
  | some t => rfl
  | none =>
    cases (TryPlan.jumpTarget? g list stop).filter fun t =>
      decide (stop < list.idxOf t) <;> rfl

/-- The runs of handlers that start before the join, in order. -/
theorem handlerSpans_eq (h : ∀ id ∈ list, id < g.blocks.length)
    {joinBlock : Option Nat} {join : Nat} (hjoin : join ≤ list.length)
    {hs : List HandlerSpan} (hbefore : ∀ h ∈ hs, h.start < join) :
    handlerSpans g list joinBlock join hs =
      some (TryPlan.spans g list joinBlock join hs) := by
  induction hs with
  | nil => rfl
  | cons x hs ih =>
    obtain ⟨hx, hhs⟩ := List.forall_mem_cons.1 hbefore
    have hstop : (hs.head?.map (·.start)).getD join ≤ list.length := by
      cases hs with
      | nil => exact hjoin
      | cons y hs =>
        exact Nat.le_trans (Nat.le_of_lt (hhs y List.mem_cons_self)) hjoin
    rw [handlerSpans, ih hhs, TryPlan.spans]
    simp only [Option.bind_eq_bind, Option.bind_some]
    by_cases hlt : x.start < (hs.head?.map (·.start)).getD join
    · rw [if_pos hlt, jumpAt_eq h (by omega)]
      rfl
    · rw [if_neg hlt]
      simp [hlt]

/-- The layout of a try statement whose range ends in the list. -/
theorem tryPlan?_eq (h : ∀ id ∈ list, id < g.blocks.length) {t : TryGroup}
    (hpos : 0 < list.idxOf t.stop) (hstop : list.idxOf t.stop < list.length) :
    tryPlan? g list t = some (g.tryPlan? list t) := by
  unfold tryPlan? Graph.tryPlan?
  dsimp only
  rw [bodyAndJoin_eq h hpos hstop]
  split
  · rfl
  · simp only [Option.bind_eq_bind, Option.bind_some]
    rw [show Order.sortOn _ _ = Graph.handlersIn list t from rfl]
    cases (Graph.handlersIn list t).head? with
    | none => rfl
    | some first =>
      cases hlast : (Graph.handlersIn list t).getLast? with
      | none => rfl
      | some last =>
        dsimp only
        split
        · rfl
        · rename_i hjoin
          rw [not_or, Nat.not_le, Nat.not_lt] at hjoin
          refine congrArg (Option.bind · _)
            (handlerSpans_eq h ?_ fun x hx => ?_)
          · cases (TryPlan.bodyAndJoin g list (list.idxOf t.stop)).2 with
            | none => exact Nat.le_refl _
            | some b => exact List.idxOf_le_length
          · exact Nat.lt_of_le_of_lt (Graph.le_getLast_handlersIn hlast hx)
              hjoin.1

end Checked

/-- The runs of a try statement at position `i` of a list: the protected run is
in front of the end of the list, and the handlers lie behind its start. -/
structure TryPlan.Inside (list : List Nat) (i : Nat) (plan : TryPlan) :
    Prop where
  body : i ≤ plan.bodyStop ∧ plan.bodyStop < list.length
  handlers : ∀ h ∈ plan.handlers, i < h.start ∧ h.start ≤ h.stop ∧
  h.stop ≤ list.length
  join : i < plan.join

/-- The run of a handler goes from its start up to the join at most. -/
theorem TryPlan.mem_spans {g : Graph} {list : List Nat} {joinBlock : Option Nat}
    {join : Nat} {hs : List HandlerSpan}
    (hsorted : hs.Pairwise (·.start ≤ ·.start))
    (hbefore : ∀ h ∈ hs, h.start < join) {x : HandlerSpan}
    (hx : x ∈ spans g list joinBlock join hs) :
    (∃ h ∈ hs, x.start = h.start) ∧ x.start ≤ x.stop ∧ x.stop ≤ join := by
  induction hs with
  | nil => cases hx
  | cons h hs ih =>
    obtain ⟨hle, hsorted⟩ := List.pairwise_cons.1 hsorted
    obtain ⟨hh, hhs⟩ := List.forall_mem_cons.1 hbefore
    rw [spans_cons] at hx
    rcases List.mem_cons.1 hx with rfl | hx
    · have hnext : h.start ≤ (hs.head?.map (·.start)).getD join ∧
          (hs.head?.map (·.start)).getD join ≤ join := by
        cases hs with
        | nil => exact ⟨Nat.le_of_lt hh, Nat.le_refl _⟩
        | cons y hs =>
          exact ⟨hle y List.mem_cons_self,
            Nat.le_of_lt (hhs y List.mem_cons_self)⟩
      refine ⟨⟨h, List.mem_cons_self, rfl⟩, ?_,
        Nat.le_trans (trimmed_le ..) hnext.2⟩
      show h.start ≤ trimmed g list joinBlock h.start _
      rcases trimmed_cases g list joinBlock h.start
        ((hs.head?.map (·.start)).getD join) with
        heq | ⟨hlt, heq, _⟩
      · rw [heq]
        exact hnext.1
      · rw [heq]
        omega
    · obtain ⟨⟨y, hy, hstart⟩, hrun⟩ := ih hsorted hhs hx
      exact ⟨⟨y, List.mem_cons_of_mem h hy, hstart⟩, hrun⟩

/-- The runs of a group that starts at position `i` are inside the list. -/
theorem TryPlan.inside_of_laysOut {g : Graph} {list : List Nat} {i : Nat}
    {t : TryGroup} {plan : TryPlan} (h : TryPlan.LaysOut g list t plan)
    (hstart : i < list.idxOf t.stop) (hstop : list.idxOf t.stop < list.length) :
    plan.Inside list i := by
  have hjoin : plan.join ≤ list.length := by
    rw [h.join]
    cases joinBlock? g list t with
    | none => exact Nat.le_refl _
    | some b => exact List.idxOf_le_length
  refine ⟨?_, fun x hx =>
    ?_, Nat.lt_trans hstart (Graph.stop_lt_join_of_laysOut h)⟩
  · rw [h.bodyStop, bodyAndJoin]
    dsimp only
    split <;> dsimp only <;> omega
  · rw [h.handlers] at hx
    obtain ⟨⟨y, hy, heq⟩, hle, hlast⟩ :=
      mem_spans (Graph.pairwise_handlersIn list t) h.before hx
    have hbehind := (h.behind y hy).1
    exact ⟨by omega, hle, Nat.le_trans hlast hjoin⟩

/-! ## Switches -/

namespace Checked

variable {g : Graph} {list : List Nat}

/-- What is looked up for the join of a switch. -/
theorem joins_eq (h : ∀ id ∈ list, id < g.blocks.length) (last : Nat)
    {starts : List ArmStart}
    (hstarts : ∀ a ∈ starts, a.position ≤ list.length) :
    joins g list last starts = some (SwitchPlan.joins g list last starts) := by
  induction starts with
  | nil => rfl
  | cons a as ih =>
    cases as with
    | nil => rfl
    | cons b as =>
      have hrest := List.forall_mem_cons.1 hstarts
      have hb := hrest.2 b List.mem_cons_self
      rw [joins, SwitchPlan.joins, ih hrest.2]
      simp only [Option.bind_eq_bind, Option.bind_some]
      split
      · rename_i hlt
        rw [jumpAt_eq h (by omega)]
        rfl
      · rfl

/-- Looking for the join of a switch stays inside the list. -/
theorem joinPosition_eq (h : ∀ id ∈ list, id < g.blocks.length)
    {starts : List ArmStart}
    (hstarts : ∀ a ∈ starts, a.position ≤ list.length) :
    joinPosition g list starts =
      some (SwitchPlan.joinPosition g list starts) := by
  unfold joinPosition SwitchPlan.joinPosition
  dsimp only
  rw [joins_eq h _ hstarts]
  simp only [Option.bind_eq_bind, Option.bind_some]
  generalize (SwitchPlan.joins g list _ starts).max? = furthest
  rcases furthest with _ | j <;> rcases starts.getLast?
    with _ | ⟨p, _ | _, _ | _⟩ <;> rfl

/-- What is looked up for the runs of the cases. -/
theorem caseSpans_eq (h : ∀ id ∈ list, id < g.blocks.length) {join : Nat}
    (hjoin : join ≤ list.length) (starts : List ArmStart) :
    caseSpans g list join starts =
      some (SwitchPlan.spans g list join starts) := by
  induction starts with
  | nil => rfl
  | cons a as ih =>
    rw [caseSpans, SwitchPlan.spans, ih]
    simp only [Option.bind_eq_bind, Option.bind_some]
    split
    · split <;> rfl
    · have hstop : ((as.head?.map (·.position)).map (min join)).getD join ≤
          join := by
        cases as with
        | nil => exact Nat.le_refl _
        | cons b as => exact Nat.min_le_left _ _
      by_cases hlt :
        a.position < ((as.head?.map (·.position)).map (min join)).getD join
      · rw [if_pos hlt, jumpAt_eq h (by omega)]
        rfl
      · rw [if_neg hlt]
        simp only [decide_eq_false hlt, Bool.false_and]
        rfl

/-- The layout of the switch at a position of the list. -/
theorem switchPlan_eq (h : ∀ id ∈ list, id < g.blocks.length) {i : Nat}
    (hi : i < list.length) :
    switchPlan g list i = some (g.switchPlan list i) := by
  rw [switchPlan, Graph.switchPlan, List.getElem?_eq_getElem hi]
  simp only [Option.bind_eq_bind, Option.bind_some, Option.map_some]
  rw [exit_eq (h _ (List.getElem_mem hi))]
  simp only [Option.bind_some]
  cases g.exit list[i] with
  | selects arms default =>
    have hstarts : ∀ a ∈ SwitchPlan.armStarts list arms default,
        a.position ≤ list.length :=
      fun a => SwitchPlan.position_le_length
    dsimp only
    rw [joinPosition_eq h hstarts]
    simp only [Option.bind_some]
    rw [caseSpans_eq h (SwitchPlan.joinPosition_le_length hstarts)]
    rfl
  | _ => rfl

end Checked

/-- The runs of a switch at position `i` of a list lie behind it, and so does
the join. -/
structure SwitchPlan.Inside (list : List Nat) (i : Nat) (plan : SwitchPlan) :
    Prop where
  cases : ∀ c ∈ plan.cases, c.start < c.stop → i < c.start ∧
    c.stop ≤ list.length
  join : i < plan.join

/-- Every case is that of an arm. -/
theorem SwitchPlan.exists_caseOf {g : Graph} {list : List Nat} {join : Nat}
    {starts : List ArmStart}
    (hsorted : starts.Pairwise (·.position ≤ ·.position)) {c : CaseSpan}
    (hc : c ∈ spans g list join starts) : ∃ a ∈ starts, CaseOf join a c := by
  have hcases : List.Forall₂ (flip (CaseOf join)) (spans g list join starts)
      (starts.filter (hasCase join)) :=
        .flip (forall₂_spans g list join hsorted)
  obtain ⟨a, ha, hcase⟩ := exists_of_forall₂ hcases hc
  exact ⟨a, List.mem_of_mem_filter ha, hcase⟩

/-- A switch has at least its default arm. -/
theorem SwitchPlan.armStarts_ne_nil (list : List Nat) (arms : List SwitchArm)
    (default : Nat) : armStarts list arms default ≠ [] := by
  intro hnil
  have hperm := Order.perm_sortOn (·.position) (markDefault list default
    (arms.map fun a => ⟨list.idxOf a.target, a.keys, false⟩))
  rw [armStarts] at hnil
  rw [hnil] at hperm
  have hmarked := List.perm_nil.1 hperm.symm
  cases arms with
  | nil => cases hmarked
  | cons a as =>
    rw [List.map_cons, markDefault] at hmarked
    split at hmarked <;> cases hmarked

/-- If all arms start behind a position, so does the join. -/
theorem SwitchPlan.lt_joinPosition {g : Graph} {list : List Nat} {i : Nat}
    {starts : List ArmStart} (hi : i < list.length) (hne : starts ≠ [])
    (hstarts : ∀ a ∈ starts, i < a.position) :
    i < joinPosition g list starts := by
  have hlast := List.getLast?_eq_some_getLast hne
  have ha := hstarts _ (List.getLast_mem hne)
  unfold joinPosition
  dsimp only
  rw [hlast]
  split
  · rename_i j _ hmax
    exact Nat.lt_of_lt_of_le ha (bounds_of_mem_joins (List.max?_mem hmax)).1
  · rename_i heq
    rwa [Option.some.inj heq] at ha
  · exact hi

/-- The arms of a switch whose edges lead forward start behind it. -/
theorem SwitchPlan.lt_position_of_forward {g : Graph} {list : List Nat}
    {i id : Nat} {arms : List SwitchArm} {default : Nat}
    (hasc : list.Pairwise (· ≤ ·)) (hid : list[i]? = some id)
    (hexit : g.exit id = .selects arms default)
    (hforward : ∀ t ∈ g.successors id, id < t) :
    ∀ a ∈ armStarts list arms default, i < a.position := by
  rw [Graph.successors, hexit] at hforward
  intro a ha
  obtain ⟨-, hplace⟩ | ⟨arm, harm, -, hplace⟩ := place_of_mem_armStarts ha
  · rw [hplace]
    exact lt_idxOf_of_lt hasc hid
      (hforward default
        (List.mem_append_right _ (List.mem_singleton_self default)))
  · rw [hplace]
    exact lt_idxOf_of_lt hasc hid
      (hforward arm.target (List.mem_append_left _ (List.mem_map_of_mem harm)))

/-- The layout of a switch whose edges lead forward is behind the switch. -/
theorem SwitchPlan.inside_of_forward {g : Graph} {list : List Nat} {i id : Nat}
    (hasc : list.Pairwise (· < ·)) (hid : list[i]? = some id)
    (hforward : (g.exit id).isSwitch = true → ∀ t ∈ g.successors id, id < t) :
    (g.switchPlan list i).Inside list i := by
  have hi := (List.getElem?_eq_some_iff.1 hid).1
  unfold Graph.switchPlan
  rw [hid, Option.map_some]
  cases hexit : g.exit id with
  | selects arms default =>
    rw [hexit] at hforward
    dsimp only
    have hbehind :=
      lt_position_of_forward (hasc.imp Nat.le_of_lt) hid hexit (hforward rfl)
    have hjoin := lt_joinPosition (g := g) hi (armStarts_ne_nil _ _ _) hbehind
    refine ⟨fun c hc _ => ?_, hjoin⟩
    obtain ⟨a, ha, hcase⟩ :=
      exists_caseOf (sorted_armStarts list arms default) hc
    exact ⟨hcase.start ▸ Nat.lt_min.2 ⟨hbehind a ha, hjoin⟩,
      Nat.le_trans hcase.stop
      (joinPosition_le_length fun a => position_le_length)⟩
  | _ => exact ⟨fun c hc => (by cases hc), Nat.lt_succ_self i⟩

end Decompiler
