import Decompiler.Region.TryPlan
import Mathlib.Data.List.Basic

/-!
# The layout of a try statement

The handlers of a try statement stand in the order of their blocks, those with
one block in the order of the table.  Each one's run goes up to the start of the
next, so a block that handles several types has its run with the last of them.

* `TryPlan.LaysOut`, `Graph.laysOut_of_tryPlan?`: what a plan is made of.
* `Graph.order_of_tryPlan?`: the order of the handlers.
* `TryPlan.Laid`, `Graph.laid_of_tryPlan?`: the runs of the handlers.
-/

namespace Decompiler

namespace TryPlan

variable {g : Graph} {list : List Nat} {joinBlock : Option Nat} {join : Nat}

/-- The end of a run after a jump to the join has been left out. -/
def trimmed (g : Graph) (list : List Nat) (joinBlock : Option Nat)
    (start stop : Nat) : Nat :=
  if start < stop && joinBlock.isSome && jumpTarget? g list (stop - 1) ==
    joinBlock then stop - 1
  else stop

theorem spans_cons (h : HandlerSpan) (hs : List HandlerSpan) :
    spans g list joinBlock join (h :: hs) =
      { h with
        stop :=
  trimmed g list joinBlock h.start ((hs.head?.map (·.start)).getD join) } ::
        spans g list joinBlock join hs := rfl

/-- Only a jump to the join is left out, and none in front of the run. -/
theorem trimmed_cases (g : Graph) (list : List Nat) (joinBlock : Option Nat)
    (start stop : Nat) :
    trimmed g list joinBlock start stop = stop ∨
      start < stop ∧ trimmed g list joinBlock start stop = stop - 1 ∧
        joinBlock.isSome = true ∧
          jumpTarget? g list (stop - 1) = joinBlock := by
  unfold trimmed
  split
  case isTrue h =>
    simp only [Bool.and_eq_true, decide_eq_true_eq, beq_iff_eq] at h
    exact .inr ⟨h.1.1, rfl, h.1.2, h.2⟩
  case isFalse => exact .inl rfl

/-- A run of a list does not get longer. -/
theorem trimmed_le (g : Graph) (list : List Nat) (joinBlock : Option Nat)
    (start stop : Nat) : trimmed g list joinBlock start stop ≤ stop := by
  rcases trimmed_cases g list joinBlock start stop with h | ⟨_, h, _⟩ <;> omega

/-- A run without blocks stays without. -/
theorem trimmed_self (g : Graph) (list : List Nat) (joinBlock : Option Nat)
    (start : Nat) : trimmed g list joinBlock start start = start := by
  simp [trimmed]

/-- What does not look at where runs stop is the same for the runs of the
handlers. -/
theorem map_spans {β : Type} (f : HandlerSpan → β)
    (hf : ∀ h stop, f { h with stop } = f h) (hs : List HandlerSpan) :
    (spans g list joinBlock join hs).map f = hs.map f := by
  induction hs with
  | nil => rfl
  | cons h hs ih => rw [spans_cons, List.map_cons, List.map_cons, hf, ih]

/-- The run of a handler in a plan, in front of the runs of `rest`.  It starts
at the handler's block and goes up to the next handler's, a last jump left out.
It is empty only if the next handler has the same block or the block is a jump
itself. -/
structure Laid (g : Graph) (list : List Nat) (h : HandlerSpan)
    (rest : List HandlerSpan) :
    Prop where
  here : list[h.start]? = some h.block
  next : ∀ next ∈ rest.head?, list[next.start]? = some next.block ∧
    (h.stop = next.start ∨ h.stop + 1 = next.start ∧
      ∃ id, list[h.stop]? = some id ∧ (g.exit id).isJump = true)
  shared : rest.head?.map (·.block) = some h.block → h.stop = h.start
  runs : rest.head?.map (·.block) ≠ some h.block →
    h.start < h.stop ∨ (g.exit h.block).isJump = true

/-- Only a jump has a target. -/
theorem exists_isJump_of_jumpTarget? {p : Nat}
    (h : (jumpTarget? g list p).isSome = true) :
    ∃ id, list[p]? = some id ∧ (g.exit id).isJump = true := by
  unfold jumpTarget? at h
  cases hid : list[p]? with
  | none =>
    rw [hid] at h
    cases h
  | some id =>
    rw [hid] at h
    exact ⟨id, rfl, h⟩

/-- The runs keep the starts and blocks of their handlers, so the next run
starts where the next handler does. -/
theorem head?_spans {β : Type} (f : HandlerSpan → β)
    (hf : ∀ h stop, f { h with stop } = f h) (hs : List HandlerSpan) :
    (spans g list joinBlock join hs).head?.map f = hs.head?.map f := by
  rw [← List.head?_map, ← List.head?_map, map_spans f hf]

/-- The first of some handlers in order. -/
theorem laid_head {x : HandlerSpan} {hs : List HandlerSpan}
    (hhere : ∀ h ∈ x :: hs, list[h.start]? = some h.block)
    (hblocks : ∀ h ∈ x :: hs, h.start = list.idxOf h.block)
    (hsorted : (x :: hs).Pairwise (·.start ≤ ·.start))
    (hjoin : ∀ h ∈ x :: hs, h.start < join) :
    Laid g list
      { x with
        stop :=
  trimmed g list joinBlock x.start ((hs.head?.map (·.start)).getD join) }
      (spans g list joinBlock join hs) := by
  have hx := hhere x List.mem_cons_self
  have hle : x.start ≤ (hs.head?.map (·.start)).getD join := by
    cases hs with
    | nil => exact Nat.le_of_lt (hjoin x List.mem_cons_self)
    | cons y hs => exact (List.pairwise_cons.1 hsorted).1 y List.mem_cons_self
  refine ⟨hx, fun next hmem => ?_, fun hsame => ?_, fun hother => ?_⟩
  · have hplace : (spans g list joinBlock join hs).head?.map
        (fun h => (h.start, h.block)) =
        hs.head?.map fun h => (h.start, h.block) :=
          head?_spans _ (fun _ _ => rfl) hs
    rw [Option.mem_def.1 hmem, Option.map_some] at hplace
    obtain ⟨y, hy, hplace⟩ := Option.map_eq_some_iff.1 hplace.symm
    obtain ⟨hstart, hblock⟩ := Prod.mk.inj hplace
    have hthere := hhere y (List.mem_cons_of_mem x (List.mem_of_head? hy))
    rw [hstart, hblock] at hthere
    change _ ∧
      (trimmed g list joinBlock x.start ((hs.head?.map (·.start)).getD join) =
        _ ∨
      trimmed g list joinBlock x.start ((hs.head?.map (·.start)).getD join) +
      1 = _ ∧ _)
    rw [hy, Option.map_some, Option.getD_some, hstart]
    refine ⟨hthere, ?_⟩
    rcases trimmed_cases g list joinBlock x.start next.start
      with h | ⟨hlt, h, hsome, hjump⟩
    · exact .inl h
    · refine .inr ⟨by omega, ?_⟩
      rw [h]
      exact exists_isJump_of_jumpTarget? (hjump ▸ hsome)
  · rw [head?_spans (·.block) fun _ _ => rfl] at hsame
    obtain ⟨y, hy, hblock⟩ := Option.map_eq_some_iff.1 hsame
    have hymem := List.mem_cons_of_mem x (List.mem_of_head? hy)
    have hstart : y.start = x.start := by
      rw [hblocks y hymem, hblocks x List.mem_cons_self, hblock]
    change trimmed g list joinBlock x.start
      ((hs.head?.map (·.start)).getD join) = x.start
    rw [hy, Option.map_some, Option.getD_some, hstart, trimmed_self]
  · rw [head?_spans (·.block) fun _ _ => rfl] at hother
    change x.start < trimmed g list joinBlock x.start _ ∨ _
    have hlt : x.start < (hs.head?.map (·.start)).getD join := by
      refine Nat.lt_of_le_of_ne hle fun heq => hother ?_
      cases hs with
      | nil => exact absurd heq (Nat.ne_of_lt (hjoin x List.mem_cons_self))
      | cons y hs =>
        have hy := hhere y (List.mem_cons_of_mem _ List.mem_cons_self)
        have hstart : x.start = y.start := heq
        rw [← hstart, hx] at hy
        exact hy.symm
    rcases trimmed_cases g list joinBlock x.start _
      with h | ⟨_, h, hsome, hjump⟩
    · exact .inl (by rw [h]; exact hlt)
    · by_cases hone : x.start < (hs.head?.map (·.start)).getD join - 1
      · exact .inl (by rw [h]; exact hone)
      · have hlast : (hs.head?.map (·.start)).getD join - 1 = x.start := by
          omega
        rw [← hjump, hlast] at hsome
        obtain ⟨id, hid, hexit⟩ := exists_isJump_of_jumpTarget? hsome
        cases hx.symm.trans hid
        exact .inr hexit

/-- Handlers in order, each at its block, have runs one after the other. -/
theorem laid_of_spans {front rest : List HandlerSpan} {h : HandlerSpan}
    {hs : List HandlerSpan} (hhere : ∀ h ∈ hs, list[h.start]? = some h.block)
    (hblocks : ∀ h ∈ hs, h.start = list.idxOf h.block)
    (hsorted : hs.Pairwise (·.start ≤ ·.start))
    (hjoin : ∀ h ∈ hs, h.start < join)
    (heq : spans g list joinBlock join hs = front ++ h :: rest) :
    Laid g list h rest := by
  induction hs generalizing front with
  | nil => cases front <;> cases heq
  | cons x hs ih =>
    rw [spans_cons] at heq
    cases front with
    | nil =>
      obtain ⟨rfl, rfl⟩ := List.cons.inj heq
      exact laid_head hhere hblocks hsorted hjoin
    | cons y front =>
      exact ih (fun z hz => hhere z (List.mem_cons_of_mem _ hz))
        (fun z hz => hblocks z (List.mem_cons_of_mem _ hz))
        (List.pairwise_cons.1 hsorted).2
        (fun z hz => hjoin z (List.mem_cons_of_mem _ hz)) (List.cons.inj heq).2

end TryPlan

/-- The elements of an ascending list have places in their own order. -/
theorem idxOf_le_idxOf_iff {list : List Nat} {a b : Nat}
    (h : list.Pairwise (· < ·)) (ha : a ∈ list) (hb : b ∈ list) :
    list.idxOf a ≤ list.idxOf b ↔ a ≤ b := by
  have hlt {x y : Nat} (hx : x ∈ list) (hy : y ∈ list)
      (hxy : list.idxOf x < list.idxOf y) : x < y := by
    have hget :=
      List.pairwise_iff_getElem.1 h _ _ (List.idxOf_lt_length_iff.2 hx)
        (List.idxOf_lt_length_iff.2 hy) hxy
    rwa [List.getElem_idxOf, List.getElem_idxOf] at hget
  constructor
  · intro hle
    rcases Nat.lt_or_eq_of_le hle with hab | hab
    · exact Nat.le_of_lt (hlt ha hb hab)
    · exact Nat.le_of_eq ((List.idxOf_inj ha).1 hab)
  · intro hle
    by_contra hab
    exact absurd (hlt hb ha (Nat.lt_of_not_le hab)) (Nat.not_lt.2 hle)

/-- The handlers of a group in a list, in the order in which they start. -/
def Graph.handlersIn (list : List Nat) (t : TryGroup) : List HandlerSpan :=
  Order.sortOn (fun h : HandlerSpan => h.start)
    (t.handlers.map fun (block, type) =>
      ⟨type, block, list.idxOf block, list.length⟩)

/-- The block at the join of a group, if a jump tells it. -/
def TryPlan.joinBlock? (g : Graph) (list : List Nat) (t : TryGroup) :
    Option Nat :=
  (bodyAndJoin g list (list.idxOf t.stop)).2

/-- What a plan of a group is made of: the handlers are in the list, behind the
protected run and in front of the join. -/
structure TryPlan.LaysOut (g : Graph) (list : List Nat) (t : TryGroup)
    (plan : TryPlan) :
    Prop where
  bodyStop : plan.bodyStop = (bodyAndJoin g list (list.idxOf t.stop)).1
  join : plan.join = ((joinBlock? g list t).map (list.idxOf ·)).getD list.length
  handlers : plan.handlers = spans g list (joinBlock? g list t) plan.join
    (Graph.handlersIn list t)
  nonempty : t.handlers ≠ []
  inside : ∀ h ∈ Graph.handlersIn list t, h.start < list.length
  behind : ∀ h ∈ Graph.handlersIn list t, list.idxOf t.stop ≤ h.start ∧
  plan.bodyStop ≤ h.start
  before : ∀ h ∈ Graph.handlersIn list t, h.start < plan.join

namespace Graph

variable {g : Graph} {list : List Nat} {t : TryGroup} {plan : TryPlan}

/-- The handlers of a layout are in the order of their starts. -/
theorem pairwise_handlersIn (list : List Nat) (t : TryGroup) :
    (handlersIn list t).Pairwise fun a b => a.start ≤ b.start :=
  Order.pairwise_sortOn (fun h : HandlerSpan => h.start) _

/-- A handler starts at its block. -/
theorem start_of_mem_handlersIn {h : HandlerSpan} (hh : h ∈ handlersIn list t) :
    h.start = list.idxOf h.block := by
  obtain ⟨⟨block, type⟩, _, rfl⟩ :=
    List.mem_map.1 ((Order.perm_sortOn _ _).mem_iff.1 hh)
  rfl

/-- The first handler starts first. -/
theorem head_handlersIn_le {first h : HandlerSpan}
    (hfirst : (handlersIn list t).head? = some first)
    (hh : h ∈ handlersIn list t) : first.start ≤ h.start := by
  obtain ⟨rest, heq⟩ := List.head?_eq_some_iff.1 hfirst
  have hsorted := pairwise_handlersIn list t
  rw [heq] at hsorted hh
  rcases List.mem_cons.1 hh with rfl | hrest
  · exact Nat.le_refl _
  · exact (List.pairwise_cons.1 hsorted).1 h hrest

/-- The last handler starts last. -/
theorem le_getLast_handlersIn {last h : HandlerSpan}
    (hlast : (handlersIn list t).getLast? = some last)
    (hh : h ∈ handlersIn list t) : h.start ≤ last.start := by
  obtain ⟨front, heq⟩ := List.getLast?_eq_some_iff.1 hlast
  have hsorted := pairwise_handlersIn list t
  rw [heq] at hsorted hh
  rcases List.mem_append.1 hh with hfront | hh
  · exact (List.pairwise_append.1 hsorted).2.2 h hfront last List.mem_cons_self
  · exact Nat.le_of_eq (congrArg _ (List.mem_singleton.1 hh))

/-- What the plan of a group is made of. -/
theorem laysOut_of_tryPlan? (h : g.tryPlan? list t = some plan) :
    TryPlan.LaysOut g list t plan := by
  unfold tryPlan? at h
  dsimp only at h
  split at h
  case isTrue => cases h
  case isFalse hany =>
    split at h
    case h_2 => cases h
    case h_1 first last hfirst hlast =>
      change (handlersIn list t).head? = some first at hfirst
      change (handlersIn list t).getLast? = some last at hlast
      split at h
      case isTrue => cases h
      case isFalse hjoin =>
        cases h
        rw [not_or, Nat.not_le, Nat.not_lt] at hjoin
        have hplaces {x : HandlerSpan} (hx : x ∈ handlersIn list t) :
            list.idxOf t.stop ≤ x.start ∧ x.start < list.length := by
          have hmem := (Order.perm_sortOn _ _).mem_iff.1 hx
          have hnone := (List.any_eq_false.1 (Bool.not_eq_true _ ▸ hany)) x hmem
          simp only [Bool.or_eq_true, decide_eq_true_eq, not_or, Nat.not_lt,
            Nat.not_le] at hnone
          exact hnone
        refine ⟨rfl, rfl, rfl, fun hnone => ?_, fun x hx => (hplaces hx).2,
          fun x hx => ?_,
          fun x hx => ?_⟩
        · have hempty : handlersIn list t = [] := by rw [handlersIn, hnone]; rfl
          rw [hempty] at hlast
          cases hlast
        · exact ⟨(hplaces hx).1,
            Nat.le_trans hjoin.2 (head_handlersIn_le hfirst hx)⟩
        · exact Nat.lt_of_le_of_lt (le_getLast_handlersIn hlast hx) hjoin.1

/-- The range of a group ends in front of the join. -/
theorem stop_lt_join_of_laysOut (h : TryPlan.LaysOut g list t plan) :
    list.idxOf t.stop < plan.join := by
  obtain ⟨handler, hhandler⟩ := List.exists_mem_of_ne_nil _ h.nonempty
  have hmem := (Order.perm_sortOn (fun h : HandlerSpan => h.start) _).mem_iff.2
    (List.mem_map_of_mem
      (f := fun (block, type) => ⟨type, block, list.idxOf block, list.length⟩)
      hhandler)
  exact Nat.lt_of_le_of_lt (h.behind _ hmem).1 (h.before _ hmem)

/-- The handlers of a plan stand in the order of their blocks, and those with
the same block in the order of the group. -/
theorem order_of_tryPlan? (hlist : list.Pairwise (· < ·))
    (h : g.tryPlan? list t = some plan) :
    plan.handlers.map (fun h => (h.block, h.type)) = Order.sortOn
      (·.1) t.handlers := by
  have hlays := laysOut_of_tryPlan? h
  have hmem {r : Nat × Option String} (hr : r ∈ t.handlers) :
      list.idxOf r.1 < list.length :=
    hlays.inside ⟨r.2, r.1, list.idxOf r.1, list.length⟩
      ((Order.perm_sortOn _ _).mem_iff.2 (List.mem_map.2 ⟨r, hr, rfl⟩))
  rw [hlays.handlers, TryPlan.map_spans _ fun _ _ => rfl, handlersIn,
    ← Order.map_sortOn (fun r : Nat × Option String =>
      (⟨r.2, r.1, list.idxOf r.1, list.length⟩ : HandlerSpan)) (·.start),
        List.map_map]
  change (Order.sortOn (fun r => list.idxOf r.1) t.handlers).map id = _
  rw [List.map_id]
  refine Order.sortOn_congr fun r hr r' hr' => ?_
  exact idxOf_le_idxOf_iff hlist (List.idxOf_lt_length_iff.1 (hmem hr))
    (List.idxOf_lt_length_iff.1 (hmem hr'))

/-- The runs of the handlers of a plan. -/
theorem laid_of_tryPlan? (h : g.tryPlan? list t = some plan)
    {front rest : List HandlerSpan} {span : HandlerSpan}
    (heq : plan.handlers = front ++ span :: rest) :
    TryPlan.Laid g list span rest := by
  have hlays := laysOut_of_tryPlan? h
  have hblocks : ∀ h ∈ handlersIn list t, h.start = list.idxOf h.block :=
    fun h hh => start_of_mem_handlersIn hh
  refine TryPlan.laid_of_spans (fun h hh => ?_) hblocks
    (pairwise_handlersIn list t) hlays.before (hlays.handlers.symm.trans heq)
  have hlt := hlays.inside h hh
  rw [hblocks h hh] at hlt ⊢
  rw [List.getElem?_eq_getElem hlt, List.getElem_idxOf hlt]

end Graph

end Decompiler
