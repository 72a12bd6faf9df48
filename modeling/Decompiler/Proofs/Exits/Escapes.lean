import Decompiler.Proofs.Exits.Sections
import Decompiler.Proofs.Loops.Count
import Mathlib

/-!
# Edges that sections do not have

Sections have no jumps.  An edge out of an arm of a branch region, or out of the
body of a loop, has to lead to where the sections go on anyway.  For conditional
jumps this is made sure of when the region is taken apart.  For unconditional
jumps and fallthroughs it is not.  Such an edge is dropped without an error, and
only the record of where control goes is false then.

So two arms may run into each other (`jump_between_arms_is_dropped`), and a loop
may be left by a jump from its body (`break_is_dropped`).  A block that the
layout of a switch or try statement leaves out, and the edges of a switch
itself, are not checked either.

* `exists_arms_of_run_branch`: the edges out of the arms of a branch region.
* `edges_of_run_loop`: the edges out of the blocks of a loop.
-/

namespace Decompiler

variable {ctx : Context} {depth fuel : Nat} {isLoop : Bool} {first : Nat}
    {rest region : List Nat}
  {after : Option Nat} {s : Section} {w w' : Work}

/-- **Arms.**  A branch inside an arm of a branch region leads to blocks of the
arm or to what comes after the region.  If the sections say where control goes,
every edge out of an arm leads to a block joined with one of these by jumps. -/
theorem exists_arms_of_run_branch (hw : w.Consistent)
    (hasc : (first :: rest).Pairwise (· < ·))
    (h : (Partition.branch ctx (Partition.sections ctx depth) first rest
      after).run w =
      .ok (s, w')) :
    ∃ parts, w.graph.arms? after (first :: rest) = some parts ∧
      ∀ part ∈ parts, ∀ id ∈ part.2, ¬ w.Skips part.2 id →
        (w.graph.exit id).isSwitch = false →
            ((w.graph.exit id).isBranch = true → ∀ t ∈ w.graph.successors id,
                t ∈ part.2 ∨ after = some t) ∧
          ((Partition.branch ctx (Partition.sections ctx depth) first rest
              after).faithful w = true → ∀ t ∈ w.graph.successors id,
            ∃ n, (n ∈ part.2 ∨ after = some n) ∧ w.graph.Joined t n) := by
  obtain ⟨t, htold, -, hfaithful⟩ := Partition.exists_told_of_run h
  obtain ⟨parts, hparts, hdealt, _⟩ :=
    arms_of_branch (deals_sections depth) hw hasc htold
  rw [← hfaithful]
  exact ⟨parts, hparts, fun part hpart id hid =>
    (hdealt part hpart id hid).edges⟩

/-- An arm with a branch of its own: the branch stays in the arm. -/
theorem exists_arms_of_run_branch_nested :
    let a : Member := ⟨"C", "a", "()Z"⟩
    let b : Member := ⟨"C", "b", "()Z"⟩
    let x : Member := ⟨"C", "x", "()V"⟩
    let y : Member := ⟨"C", "y", "()V"⟩
    let z : Member := ⟨"C", "z", "()V"⟩
    let m : Method :=
      { instrs := [.call .static a, .ifZero .eq ⟨3⟩, .call .static x, .goto ⟨9⟩,
          .label ⟨3⟩, .call .static y, .call .static b, .ifZero .eq ⟨9⟩,
          .call .static z, .label ⟨9⟩, .ret none], ranges := [] }
    let ctx : Context := ⟨m, LocalTable.empty.lookup, {}⟩
    ∃ built g s w', m.graph = .ok built ∧ built.tidy m = .ok g ∧
      (Work.start ctx g).Consistent ∧ [0, 1, 2, 3, 4, 5].Pairwise (· < ·) ∧
      (Partition.branch ctx (Partition.sections ctx 4) 0 [1, 2, 3, 4, 5]
        (some 6)).run
        (Work.start ctx g) = .ok (s, w') ∧ (g.exit 4).isBranch = true ∧
      ∀ t ∈ g.successors 4, t ∈ [3, 4, 5] ∨ some 6 = some t := by
  intro a b x y z m ctx
  have hswitch : m.HasNoSwitch := by decide
  have hrun : (do
      let built ← m.graph
      let g ← built.tidy m
      let parts ← (Partition.branch ctx (Partition.sections ctx 4) 0
        [1, 2, 3, 4, 5] (some 6)).run
        (Work.start ctx g)
      return (g.arms? (some 6) [0, 1, 2, 3, 4, 5], (g.exit 4).isBranch)) =
        .ok (some [([0], [1, 2]), ([], [3, 4, 5])], true) := by decide +kernel
  obtain ⟨built, hbuilt, hrun⟩ := bind_eq_ok.1 hrun
  obtain ⟨g, htidy, hrun⟩ := bind_eq_ok.1 hrun
  obtain ⟨⟨s, w'⟩, hparts, hrun⟩ := bind_eq_ok.1 hrun
  obtain ⟨harms, hbranch⟩ := Prod.mk.inj (Except.ok.inj hrun)
  have hw : (Work.start ctx g).Consistent := Work.consistent_start hbuilt htidy
  have hsteady :=
    @Graph.Sequential.steady ctx g
      (sequential_of_tidy hswitch rfl hbuilt htidy) rfl
  obtain ⟨parts, hall, hedges⟩ :=
    exists_arms_of_run_branch hw (by decide) hparts
  obtain rfl := Option.some.inj (harms.symm.trans hall)
  refine ⟨built, g, s, w', hbuilt, htidy, hw, by decide, hparts, hbranch, ?_⟩
  exact (hedges ([], [3, 4, 5]) (by decide) 4 (by decide)
    (Work.not_skips (fun x _ => hsteady.noSwitch x) hsteady.pending)
    (hsteady.noSwitch 4)).1 hbranch

/-- A jump from one arm into the other one, to where the code after a branch at
its end starts: from block 2 control goes to block 5 in the second arm, and the
branch region has no such edge. -/
theorem jump_between_arms_is_dropped :
    let a : Member := ⟨"C", "a", "()Z"⟩
    let b : Member := ⟨"C", "b", "()Z"⟩
    let x : Member := ⟨"C", "x", "()V"⟩
    let y : Member := ⟨"C", "y", "()V"⟩
    let z : Member := ⟨"C", "z", "()V"⟩
    let m : Method :=
      { instrs := [.call .static a, .ifZero .eq ⟨3⟩, .call .static x, .goto ⟨5⟩,
          .label ⟨3⟩, .call .static y, .call .static b, .ifZero .ne ⟨6⟩,
          .label ⟨5⟩, .call .static z, .label ⟨6⟩, .ret none], ranges := [] }
    let ctx : Context := ⟨m, LocalTable.empty.lookup, {}⟩
    ∃ built g s w', m.graph = .ok built ∧ built.tidy m = .ok g ∧
      (Partition.branch ctx (Partition.sections ctx 4) 0 [1, 2, 3, 4, 5]
        (some 6)).run (Work.start ctx g) = .ok (s, w') ∧
      g.arms? (some 6) [0, 1, 2, 3, 4, 5] =
      some [([0], [1, 2]), ([], [3, 4, 5])] ∧
      ∃ t ∈ g.successors 2, t ∉ [1, 2] ∧ some 6 ≠ some t ∧ t ∈ [3, 4, 5] := by
  intro a b x y z m ctx
  have hrun : (do
      let built ← m.graph
      let g ← built.tidy m
      let parts ← (Partition.branch ctx (Partition.sections ctx 4) 0
        [1, 2, 3, 4, 5] (some 6)).run
        (Work.start ctx g)
      return (g.arms? (some 6) [0, 1, 2, 3, 4, 5], g.successors 2)) =
        .ok (some [([0], [1, 2]), ([], [3, 4, 5])], [5]) := by decide +kernel
  obtain ⟨built, hbuilt, hrun⟩ := bind_eq_ok.1 hrun
  obtain ⟨g, htidy, hrun⟩ := bind_eq_ok.1 hrun
  obtain ⟨⟨s, w'⟩, hparts, hrun⟩ := bind_eq_ok.1 hrun
  obtain ⟨harms, hedges⟩ := Prod.mk.inj (Except.ok.inj hrun)
  refine ⟨built, g, s, w', hbuilt, htidy, hparts, harms, 5,
    ?_, by decide, by decide, by decide⟩
  rw [hedges]
  exact List.mem_singleton_self 5

/-- **Loops.**  A branch in a loop that is not part of its test leads to blocks
of the loop.  If the sections say where control goes, every edge out of a block
that is not part of the test leads to a block joined with one of the loop by
jumps. -/
theorem edges_of_run_loop (hw : w.Consistent) (hasc : region.Pairwise (· < ·))
    (hloop : isLoop = true ∨ ∃ first ∈ region.head?,
      (w.graph.exit first).isJump = true)
    (h : (Partition.regionSection ctx (Partition.sections ctx depth) fuel isLoop
      region after).run
      w = .ok (s, w')) :
    ∀ id ∈ region, id ∉ w.loopTests isLoop region → ¬ w.Skips region id →
      (w.graph.exit id).isSwitch = false →
        ((w.graph.exit id).isBranch = true → ∀ t ∈ w.graph.successors id,
            t ∈ region) ∧
          ((Partition.regionSection ctx (Partition.sections ctx depth) fuel
              isLoop region after).faithful w = true →
            ∀ t ∈ w.graph.successors id, ∃ n ∈ region,
              w.graph.Joined t n) := by
  obtain ⟨t, htold, -, hfaithful⟩ := Partition.exists_told_of_run h
  have hdeals : LoopDeals region (w.loopTests isLoop region) after ⟨w, true⟩
      t := by
    cases Partition.regionTaken_of_told htold with
    | loop run => exact loopDeals_of_loop (deals_sections depth) hw hasc run
    | jumpEntered jump run =>
      exact loopDeals_of_jumpEntered (deals_sections depth) hw hasc jump run
    | branch noJump _ _ =>
      obtain ⟨_, hhead, hjump⟩ := hloop.resolve_left Bool.false_ne_true
      cases hhead
      rw [hjump] at noJump
      cases noJump
  intro id hid htest hskips hswitch
  obtain ⟨hbranch, hall⟩ := (hdeals.others id hid htest).edges hskips hswitch
  refine ⟨fun hb t ht =>
    (hbranch hb t ht).resolve_right (Option.some_ne_none t).symm,
    fun hsound t ht => ?_⟩
  obtain ⟨n, hn, hjoined⟩ := hall (hfaithful.trans hsound) t ht
  exact ⟨n, hn.resolve_right (Option.some_ne_none n).symm, hjoined⟩

/-- A loop with a test at its top and a branch in its body: the branch stays in
the loop. -/
theorem edges_of_run_loop_tested :
    let a : Member := ⟨"C", "a", "()Z"⟩
    let b : Member := ⟨"C", "b", "()Z"⟩
    let x : Member := ⟨"C", "x", "()V"⟩
    let y : Member := ⟨"C", "y", "()V"⟩
    let m : Method :=
      { instrs :=
        [.label ⟨0⟩, .call .static a, .ifZero .eq ⟨9⟩, .call .static b,
          .ifZero .eq ⟨4⟩, .call .static x, .label ⟨4⟩, .call .static y,
          .goto ⟨0⟩, .label ⟨9⟩, .ret none],
        ranges := [] }
    let ctx : Context := ⟨m, LocalTable.empty.lookup, {}⟩
    ∃ built g s w', m.graph = .ok built ∧ built.tidy m = .ok g ∧
      (Work.start ctx g).Consistent ∧ [0, 1, 2, 3, 4].Pairwise (· < ·) ∧
      (Partition.regionSection ctx (Partition.sections ctx 4) 5 true
        [0, 1, 2, 3, 4] (some 5)).run (Work.start ctx g) = .ok (s, w') ∧
      (Work.start ctx g).loopTests true [0, 1, 2, 3, 4] = [0] ∧
      (g.exit 1).isBranch = true ∧ ∀ t ∈ g.successors 1,
      t ∈ [0, 1, 2, 3, 4] := by
  intro a b x y m ctx
  have hswitch : m.HasNoSwitch := by decide
  have hrun : (do
      let built ← m.graph
      let g ← built.tidy m
      let parts ← (Partition.regionSection ctx (Partition.sections ctx 4) 5 true
        [0, 1, 2, 3, 4] (some 5)).run (Work.start ctx g)
      return ((Work.start ctx g).loopTests true [0, 1, 2, 3, 4],
        (g.exit 1).isBranch)) = .ok ([0], true) := by decide +kernel
  obtain ⟨built, hbuilt, hrun⟩ := bind_eq_ok.1 hrun
  obtain ⟨g, htidy, hrun⟩ := bind_eq_ok.1 hrun
  obtain ⟨⟨s, w'⟩, hparts, hrun⟩ := bind_eq_ok.1 hrun
  obtain ⟨htests, hbranch⟩ := Prod.mk.inj (Except.ok.inj hrun)
  have hw : (Work.start ctx g).Consistent := Work.consistent_start hbuilt htidy
  have hsteady :=
    @Graph.Sequential.steady ctx g
      (sequential_of_tidy hswitch rfl hbuilt htidy) rfl
  refine ⟨built, g, s, w', hbuilt, htidy,
    hw, by decide, hparts, htests, hbranch, ?_⟩
  exact (edges_of_run_loop hw (by decide) (.inl rfl) hparts 1 (by decide)
    (by rw [htests]; decide)
    (Work.not_skips (fun x _ => hsteady.noSwitch x) hsteady.pending)
    (hsteady.noSwitch 1)).1 hbranch

/-- A jump out of the body of a loop: from block 3 control leaves the loop, and
the section of the loop has no such edge. -/
theorem break_is_dropped :
    let a : Member := ⟨"C", "a", "()Z"⟩
    let x : Member := ⟨"C", "x", "()V"⟩
    let y : Member := ⟨"C", "y", "()V"⟩
    let z : Member := ⟨"C", "z", "()V"⟩
    let m : Method :=
      { instrs :=
        [.label ⟨0⟩, .call .static x, .call .static a, .ifZero .eq ⟨3⟩,
          .call .static y, .goto ⟨9⟩, .label ⟨3⟩, .call .static z, .goto ⟨0⟩,
          .label ⟨9⟩, .ret none], ranges := [] }
    let ctx : Context := ⟨m, LocalTable.empty.lookup, {}⟩
    ∃ built g s w', m.graph = .ok built ∧ built.tidy m = .ok g ∧
      (Partition.regionSection ctx (Partition.sections ctx 4) 6 true
        [0, 1, 2, 3, 4, 5] (some 6)).run (Work.start ctx g) = .ok (s, w') ∧
      3 ∉ (Work.start ctx g).loopTests true [0, 1, 2, 3, 4, 5] ∧
      ∃ t ∈ g.successors 3, t ∉ [0, 1, 2, 3, 4, 5] := by
  intro a x y z m ctx
  have hrun : (do
      let built ← m.graph
      let g ← built.tidy m
      let parts ← (Partition.regionSection ctx (Partition.sections ctx 4) 6 true
        [0, 1, 2, 3, 4, 5] (some 6)).run (Work.start ctx g)
      return ((Work.start ctx g).loopTests true [0, 1, 2, 3, 4, 5],
        g.successors 3)) = .ok ([], [6]) := by decide +kernel
  obtain ⟨built, hbuilt, hrun⟩ := bind_eq_ok.1 hrun
  obtain ⟨g, htidy, hrun⟩ := bind_eq_ok.1 hrun
  obtain ⟨⟨s, w'⟩, hparts, hrun⟩ := bind_eq_ok.1 hrun
  obtain ⟨htests, hedges⟩ := Prod.mk.inj (Except.ok.inj hrun)
  refine ⟨built, g, s, w', hbuilt, htidy, hparts, ?_, 6, ?_, by decide⟩
  · rw [htests]
    exact List.not_mem_nil
  · rw [hedges]
    exact List.mem_singleton_self 6

end Decompiler
