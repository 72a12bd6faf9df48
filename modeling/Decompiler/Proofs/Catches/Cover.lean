import Decompiler.Graph.Tidy
import Decompiler.Proofs.Catches.Layout
import Decompiler.Proofs.Region.Found
import Mathlib

/-!
# What a try statement covers

A try statement takes up the blocks of a list from its first one up to its join.
Its parts are the protected run and the runs of the handlers.  A jump to the
join at the end of a part may be left out, as nothing remains to be said about
it.

The handlers are only required to start behind the protected run, not right at
its end.  Blocks in between belong to no part, and are lost: what they do is not
in the statement, and the list goes on behind the join
(`block_before_handlers_is_lost`).  No other block is.

* `TryPlan.Covers`: a position that is accounted for.
* `TryPlan.holding_spanRuns`: the runs of the handlers from the first of them
  on.
* `covers_iff_of_run_tryPlan?`: the positions that are accounted for.
-/

namespace Decompiler

namespace TryPlan

/-- The runs of a statement that starts at `i`: the protected one and those of
the handlers. -/
def runs (i : Nat) (plan : TryPlan) : List (Nat × Nat) :=
  (i, plan.bodyStop) :: plan.handlers.map fun h => (h.start, h.stop)

/-- The runs that a position lies in. -/
def holding (p : Nat) (runs : List (Nat × Nat)) : List (Nat × Nat) :=
  runs.filter fun r => r.1 ≤ p && p < r.2

/-- A jump to the join that has been left out at the end of a run. -/
def CutAt (g : Graph) (list : List Nat) (joinBlock : Option Nat)
    (runs : List (Nat × Nat)) (p : Nat) : Prop :=
  (∃ r ∈ runs, r.1 ≤ p ∧ r.2 = p) ∧ joinBlock.isSome = true ∧
    jumpTarget? g list p = joinBlock

/-- A position that is accounted for: it lies in one run and no other, or in
none since it is a jump to the join that has been left out. -/
def Covers (g : Graph) (list : List Nat) (t : TryGroup) (i : Nat)
    (plan : TryPlan) (p : Nat) :
    Prop :=
  (holding p (plan.runs i)).length = 1 ∨
    holding p (plan.runs i) = [] ∧ CutAt g list (joinBlock? g list t)
      (plan.runs i) p

/-- The first position behind the protected run and the jump at its end. -/
def behindBody (g : Graph) (list : List Nat) (t : TryGroup) (plan : TryPlan) :
    Nat :=
  if (joinBlock? g list t).isSome then plan.bodyStop + 1 else plan.bodyStop

variable {g : Graph} {list : List Nat} {joinBlock : Option Nat} {join p : Nat}

/-- The first range holds a position, or the others do. -/
theorem holding_cons (r : Nat × Nat) (rs : List (Nat × Nat)) :
    holding p (r :: rs) = if r.1 ≤ p ∧ p < r.2 then r :: holding p rs
      else holding p rs := by
  simp only [holding, List.filter_cons, Bool.and_eq_true, decide_eq_true_eq]

/-- Some run holds a position, or none does. -/
theorem exists_mem_of_holding_ne_nil {rs : List (Nat × Nat)}
    (h : holding p rs ≠ []) : ∃ r ∈ rs, r.1 ≤ p ∧ p < r.2 := by
  obtain ⟨r, hr⟩ := List.exists_mem_of_ne_nil _ h
  obtain ⟨hmem, hholds⟩ := List.mem_filter.1 hr
  rw [Bool.and_eq_true, decide_eq_true_eq, decide_eq_true_eq] at hholds
  exact ⟨r, hmem, hholds⟩

/-- A position that the runs are cut at stays one when a run is put in front. -/
theorem CutAt.cons {rs : List (Nat × Nat)} (h : CutAt g list joinBlock rs p)
    (r : Nat × Nat) : CutAt g list joinBlock (r :: rs) p := by
  obtain ⟨⟨r', hmem, heq⟩, hjump⟩ := h
  exact ⟨⟨r', List.mem_cons_of_mem r hmem, heq⟩, hjump⟩

/-- The runs of some handlers. -/
def spanRuns (g : Graph) (list : List Nat) (joinBlock : Option Nat) (join : Nat)
    (hs : List HandlerSpan) : List (Nat × Nat) :=
  (spans g list joinBlock join hs).map fun h => (h.start, h.stop)

/-- The run of a handler goes up to the next one, its last jump left out. -/
theorem spanRuns_cons (h : HandlerSpan) (hs : List HandlerSpan) :
    spanRuns g list joinBlock join (h :: hs) =
      (h.start, trimmed g list joinBlock h.start
          ((hs.head?.map (·.start)).getD join)) ::
        spanRuns g list joinBlock join hs := rfl

/-- Each run starts where a handler does. -/
theorem exists_start_of_mem_spanRuns {hs : List HandlerSpan} {r : Nat × Nat}
    (hr : r ∈ spanRuns g list joinBlock join hs) : ∃ h ∈ hs, h.start = r.1 := by
  have hfirst : r.1 ∈ (spanRuns g list joinBlock join hs).map (·.1) :=
    List.mem_map_of_mem hr
  rw [spanRuns, List.map_map] at hfirst
  change r.1 ∈ (spans g list joinBlock join hs).map (·.start) at hfirst
  rw [map_spans _ fun _ _ => rfl] at hfirst
  exact List.mem_map.1 hfirst

/-- In front of all handlers no run of theirs holds anything. -/
theorem holding_spanRuns_eq_nil {hs : List HandlerSpan}
    (hbefore : ∀ h ∈ hs, p < h.start) :
    holding p (spanRuns g list joinBlock join hs) = [] := by
  induction hs with
  | nil => rfl
  | cons h hs ih =>
    have hlt := hbefore h List.mem_cons_self
    rw [spanRuns_cons, holding_cons,
      if_neg fun hholds => absurd hholds.1 (Nat.not_le.2 hlt)]
    exact ih fun x hx => hbefore x (List.mem_cons_of_mem h hx)

/-- **Handlers.**  From the first handler on, up to the join, each position lies
in the run of one handler, or is a jump to the join behind one. -/
theorem holding_spanRuns {hs : List HandlerSpan}
    (hsorted : hs.Pairwise (·.start ≤ ·.start)) (hjoin : p < join)
    (hfrom : ∃ h ∈ hs.head?, h.start ≤ p) :
    (holding p (spanRuns g list joinBlock join hs)).length = 1 ∨
      holding p (spanRuns g list joinBlock join hs) = [] ∧
        CutAt g list joinBlock (spanRuns g list joinBlock join hs) p := by
  induction hs with
  | nil =>
    obtain ⟨_, hnone, _⟩ := hfrom
    cases hnone
  | cons h hs ih =>
    obtain ⟨hfirst, hsorted⟩ := List.pairwise_cons.1 hsorted
    have hstart : h.start ≤ p := by
      obtain ⟨_, hhead, hle⟩ := hfrom
      cases hhead
      exact hle
    have hend :=
      trimmed_le g list joinBlock h.start ((hs.head?.map (·.start)).getD join)
    by_cases hnext : p < (hs.head?.map (·.start)).getD join
    · -- the handlers after this one start behind the position
      have hrest : holding p (spanRuns g list joinBlock join hs) = [] := by
        refine holding_spanRuns_eq_nil fun x hx => ?_
        cases hs with
        | nil => cases hx
        | cons y hs =>
          rcases List.mem_cons.1 hx with rfl | hx
          · exact hnext
          · exact Nat.lt_of_lt_of_le hnext
              ((List.pairwise_cons.1 hsorted).1 x hx)
      rw [spanRuns_cons, holding_cons, hrest]
      by_cases hin :
        p < trimmed g list joinBlock h.start
        ((hs.head?.map (·.start)).getD join)
      · rw [if_pos ⟨hstart, hin⟩]
        exact .inl rfl
      · rw [if_neg fun hholds => hin hholds.2]
        rcases trimmed_cases g list joinBlock h.start
          ((hs.head?.map (·.start)).getD join) with
          heq | ⟨_, heq, hsome, hjump⟩
        · omega
        · have hp : (hs.head?.map (·.start)).getD join - 1 = p := by omega
          exact .inr ⟨rfl, ⟨_, List.mem_cons_self, hstart, heq.trans hp⟩, hsome,
            hp ▸ hjump⟩
    · rw [spanRuns_cons, holding_cons, if_neg fun hholds => by omega]
      have hothers := ih hsorted ?_
      · exact hothers.imp_right fun hcut => ⟨hcut.1, hcut.2.cons _⟩
      · cases hs with
        | nil => exact absurd hjoin hnext
        | cons y hs => exact ⟨y, rfl, Nat.not_lt.1 hnext⟩

/-- The jump that tells the join stands right behind the protected run. -/
theorem jumpTarget?_bodyStop {stop : Nat}
    (h : (bodyAndJoin g list stop).2.isSome = true) :
    jumpTarget? g list (bodyAndJoin g list stop).1 =
      (bodyAndJoin g list stop).2 := by
  unfold bodyAndJoin at h ⊢
  dsimp only at h ⊢
  split
  case h_1 target _ htarget => exact (Option.filter_eq_some_iff.1 htarget).1
  case h_2 target _ htarget => exact (Option.filter_eq_some_iff.1 htarget).1
  case h_3 hlast hnext =>
    rw [hlast, hnext] at h
    cases h

variable {t : TryGroup} {plan : TryPlan} {i : Nat}

/-- The runs of a layout are the protected one and those of the handlers. -/
theorem LaysOut.runs_eq (h : LaysOut g list t plan) :
    plan.runs i = (i, plan.bodyStop) ::
      spanRuns g list (joinBlock? g list t) plan.join
        (Graph.handlersIn list t) := by
  rw [runs, h.handlers]
  rfl

/-- Where there is a join, the protected run stops at a jump to it. -/
theorem LaysOut.jumpTarget?_bodyStop (h : LaysOut g list t plan)
    (hsome : (joinBlock? g list t).isSome = true) :
    jumpTarget? g list plan.bodyStop = joinBlock? g list t := by
  rw [h.bodyStop]
  exact TryPlan.jumpTarget?_bodyStop hsome

/-- What comes first among the handlers comes before all of them. -/
theorem LaysOut.forall_lt_start_iff (h : LaysOut g list t plan) :
    (∀ x ∈ plan.handlers, p < x.start) ↔ ∀ x ∈ Graph.handlersIn list t,
      p < x.start := by
  have hstarts : plan.handlers.map (·.start) = (Graph.handlersIn list t).map
      (·.start) := by
    rw [h.handlers, map_spans _ fun _ _ => rfl]
  have hmaps (hs : List HandlerSpan) :
      (∀ x ∈ hs, p < x.start) ↔ ∀ start ∈ hs.map (·.start), p < start :=
        List.forall_mem_map.symm
  rw [hmaps, hmaps, hstarts]

/-- Behind the protected run and the jump at its end, and in front of the
handlers, nothing is accounted for. -/
theorem LaysOut.not_covers (h : LaysOut g list t plan)
    (hbehind : plan.behindBody g list t ≤ p)
    (hbefore : ∀ x ∈ Graph.handlersIn list t, p < x.start) :
    ¬ Covers g list t i plan p := by
  have hbody : plan.bodyStop ≤ p := by
    unfold behindBody at hbehind
    split at hbehind <;> omega
  have hnone : holding p (plan.runs i) = [] := by
    rw [h.runs_eq, holding_cons, if_neg fun hholds => by omega]
    exact holding_spanRuns_eq_nil hbefore
  rintro (hone | ⟨_, ⟨r, hr, hfrom, hstop⟩, hsome, _⟩)
  · rw [hnone] at hone
    cases hone
  · rw [behindBody, if_pos hsome] at hbehind
    rw [h.runs_eq] at hr
    rcases List.mem_cons.1 hr with rfl | hr
    · exact absurd hbehind (by omega)
    · obtain ⟨x, hx, hstart⟩ := exists_start_of_mem_spanRuns hr
      exact absurd (hbefore x hx) (by omega)

/-- Everything else is accounted for. -/
theorem LaysOut.covers (h : LaysOut g list t plan) (hi : i ≤ p)
    (hjoin : p < plan.join)
    (hinside : p < plan.behindBody g list t ∨ ∃ x ∈ Graph.handlersIn list t,
      x.start ≤ p) :
    Covers g list t i plan p := by
  rw [Covers, h.runs_eq, holding_cons]
  by_cases hbody : p < plan.bodyStop
  · have hbefore : ∀ x ∈ Graph.handlersIn list t, p < x.start := fun x hx =>
      Nat.lt_of_lt_of_le hbody (h.behind x hx).2
    rw [if_pos ⟨hi, hbody⟩, holding_spanRuns_eq_nil hbefore]
    exact .inl rfl
  · rw [if_neg fun hholds => hbody hholds.2]
    by_cases hfrom : ∃ x ∈ Graph.handlersIn list t, x.start ≤ p
    · have hhead : ∃ x ∈ (Graph.handlersIn list t).head?, x.start ≤ p := by
        obtain ⟨x, hx, hle⟩ := hfrom
        cases hhead : (Graph.handlersIn list t).head? with
        | none =>
          rw [List.head?_eq_none_iff.1 hhead] at hx
          cases hx
        | some first =>
          exact ⟨first, rfl,
            Nat.le_trans (Graph.head_handlersIn_le hhead hx) hle⟩
      refine Or.imp_right (fun hcut => ?_)
        (holding_spanRuns (Graph.pairwise_handlersIn list t) hjoin hhead)
      exact ⟨hcut.1, hcut.2.cons _⟩
    · -- the jump at the end of the protected run
      have hless := hinside.resolve_right hfrom
      unfold behindBody at hless
      split at hless
      case isTrue hsome =>
        obtain rfl : p = plan.bodyStop := by omega
        refine .inr ⟨?_, ⟨_, List.mem_cons_self, hi, rfl⟩, hsome,
          h.jumpTarget?_bodyStop hsome⟩
        refine holding_spanRuns_eq_nil fun x hx => Nat.lt_of_not_le fun hle =>
          hfrom ⟨x, hx, hle⟩
      case isFalse => exact absurd hless hbody

end TryPlan

variable {w w' : Work} {list : List Nat} {id i p : Nat} {t : TryGroup}
    {plan : TryPlan}

/-- **Cover.**  Between its start and its join a try statement accounts for
every block but those behind the protected run and the jump at its end that come
before all handlers. -/
theorem covers_iff_of_run_tryPlan?
    (h : (Partition.tryPlan? list id).run w = .ok (some (t, plan), w'))
    (hfrom : i ≤ p) (hjoin : p < plan.join) :
    TryPlan.Covers w.graph list t i plan p ↔
      ¬ (TryPlan.behindBody w.graph list t plan ≤ p ∧ ∀ x ∈ plan.handlers,
          p < x.start) := by
  obtain ⟨_, htold, -, -⟩ := Partition.exists_told_of_run h
  cases Partition.planFound_of_told htold with
  | some _ _ _ plans =>
    have hlays : TryPlan.LaysOut w.graph list t plan := Graph.laysOut_of_tryPlan? plans
    rw [hlays.forall_lt_start_iff]
    constructor
    · intro hcovers hlost
      exact hlays.not_covers hlost.1 hlost.2 hcovers
    · intro hinside
      apply hlays.covers hfrom hjoin
      by_cases hbehind : p < TryPlan.behindBody w.graph list t plan
      · exact .inl hbehind
      · refine .inr ?_
        by_contra hnone
        refine hinside ⟨Nat.not_lt.1 hbehind, fun x hx => ?_⟩
        exact Nat.lt_of_not_le fun hle => hnone ⟨x, hx, hle⟩

/-- A handler right behind the jump over it: the protected block, the jump and
the handler are accounted for. -/
theorem covers_of_run_tryPlan?_adjacent :
    let m : Method :=
      { instrs := [.label ⟨0⟩, .call .static ⟨"C", "x", "()V"⟩, .label ⟨1⟩,
          .goto ⟨9⟩, .label ⟨2⟩, .store .reference 1,
          .call .static ⟨"C", "y", "()V"⟩, .label ⟨9⟩, .ret none],
        ranges := [⟨⟨0⟩, ⟨1⟩, ⟨2⟩, some "A"⟩] }
    let ctx : Context := ⟨m, LocalTable.empty.lookup, {}⟩
    ∃ built g t plan w', m.graph = .ok built ∧ built.tidy m = .ok g ∧
      (Partition.tryPlan? (List.range 4) 0).run (Work.start ctx g) =
      .ok (some (t, plan), w') ∧
      plan.join = 3 ∧ ∀ p < 3, TryPlan.Covers g (List.range 4) t 0 plan p := by
  intro m ctx
  let t : TryGroup := ⟨0, 1, [(2, some "A")]⟩
  let plan : TryPlan := ⟨1, [⟨some "A", 2, 2, 3⟩], 3⟩
  have hrun : (do
      let built ← m.graph
      let g ← built.tidy m
      let r ← (Partition.tryPlan? (List.range 4) 0).run (Work.start ctx g)
      return (r.1, TryPlan.joinBlock? g (List.range 4) t)) =
        .ok (some (t, plan), some 3) := by decide +kernel
  obtain ⟨built, hbuilt, hrun⟩ := bind_eq_ok.1 hrun
  obtain ⟨g, htidy, hrun⟩ := bind_eq_ok.1 hrun
  obtain ⟨⟨r, w'⟩, hplan, hrun⟩ := bind_eq_ok.1 hrun
  obtain ⟨hr, hjump⟩ := Prod.mk.inj (Except.ok.inj hrun)
  obtain rfl : r = some (t, plan) := hr
  refine ⟨built, g, t, plan, w', hbuilt, htidy, hplan, rfl, fun p hp => ?_⟩
  refine (covers_iff_of_run_tryPlan? (i := 0) hplan (Nat.zero_le p) hp).2
    fun hlost => ?_
  -- behind the jump the only handler starts
  have hbefore : p < 2 :=
    hlost.2 ⟨some "A", 2, 2, 3⟩ (List.mem_singleton_self _)
  have hbehind : 2 ≤ p := by
    have hle := hlost.1
    rwa [TryPlan.behindBody, show (Work.start ctx g).graph = g from rfl,
      hjump] at hle
  omega

/-- A block between the protected range and its handler, and the jump after it,
are in no part of the statement: the call of `f` is lost. -/
theorem block_before_handlers_is_lost :
    let m : Method :=
      { instrs := [.label ⟨0⟩, .call .static ⟨"C", "x", "()V"⟩, .label ⟨1⟩,
          .call .static ⟨"C", "f", "()V"⟩, .goto ⟨9⟩, .label ⟨2⟩,
          .store .reference 1,
          .call .static ⟨"C", "y", "()V"⟩, .label ⟨9⟩, .ret none],
        ranges := [⟨⟨0⟩, ⟨1⟩, ⟨2⟩, some "A"⟩] }
    let ctx : Context := ⟨m, LocalTable.empty.lookup, {}⟩
    ∃ built g t plan w', m.graph = .ok built ∧ built.tidy m = .ok g ∧
      (Partition.tryPlan? (List.range 5) 0).run (Work.start ctx g) =
      .ok (some (t, plan), w') ∧ 1 < plan.join ∧ (g.exit 1).isJump = false ∧
      ¬ TryPlan.Covers g (List.range 5) t 0 plan 1 := by
  intro m ctx
  let t : TryGroup := ⟨0, 1, [(3, some "A")]⟩
  let plan : TryPlan := ⟨1, [⟨some "A", 3, 3, 5⟩], 5⟩
  have hrun : (do
      let built ← m.graph
      let g ← built.tidy m
      let r ← (Partition.tryPlan? (List.range 5) 0).run (Work.start ctx g)
      return (r.1, TryPlan.joinBlock? g (List.range 5) t, (g.exit 1).isJump)) =
        .ok (some (t, plan), none, false) := by decide +kernel
  obtain ⟨built, hbuilt, hrun⟩ := bind_eq_ok.1 hrun
  obtain ⟨g, htidy, hrun⟩ := bind_eq_ok.1 hrun
  obtain ⟨⟨r, w'⟩, hplan, hrun⟩ := bind_eq_ok.1 hrun
  obtain ⟨hr, hrest⟩ := Prod.mk.inj (Except.ok.inj hrun)
  obtain ⟨hjoin, hjump⟩ := Prod.mk.inj hrest
  obtain rfl : r = some (t, plan) := hr
  refine ⟨built, g, t, plan, w', hbuilt, htidy, hplan, by decide, hjump, ?_⟩
  rintro (hone | ⟨_, _, hsome, _⟩)
  · exact absurd hone (by decide)
  · rw [hjoin] at hsome
    cases hsome

end Decompiler
