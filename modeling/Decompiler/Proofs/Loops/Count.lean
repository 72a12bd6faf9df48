import Decompiler.Proofs.Loops.Sections
import Mathlib

/-!
# Loops of a method and loops of its sections

A block with an edge back to it heads a loop, and the sections of a method are
to have a loop for it.  A region of tests may take such a block for one of its
own tests, though: the loop is lost then, and the edge back to its head leads
nowhere any more.  The sections do not say where control goes in that case.
When they do, every head that is not a jump has a loop of its own.

* `Graph.Sequential.steady`, `Graph.Sequential.listed`: a tidy graph before it
  is taken apart.
* `length_loopHeads_le_loopsOf`: heads have loops.
* `loop_at_end_of_body_is_lost`: a loop that is lost.
-/

namespace Decompiler

variable {ctx : Context} {g : Graph}

namespace Graph.Sequential

/-- The work on a sequential graph starts out steady. -/
theorem steady (h : g.Sequential) (hranges : ctx.method.ranges = []) :
    Steady g.place g ⟨Work.start ctx g, true⟩ where
  length := rfl
  places := fun _ => ⟨rfl, rfl, rfl⟩
  jumps := fun _ _ hexit => place_of_jumps hexit
  noSwitch := fun id => (h.plain id).noSwitch
  branches := fun _ hid => hid
  pending := by
    simp only [Work.start, TryGroup.ofMethod, hranges]
    exact ite_self _
  entries := fun id => (h.plain id).entry

/-- All blocks of a sequential graph together leave no gap. -/
theorem listed (h : g.Sequential) (n : Nat) :
    Listed g ⟨Work.start ctx g, true⟩ (List.range n) n := by
  induction n with
  | zero => trivial
  | succ n ih =>
    rw [List.range_succ, listed_append]
    refine ⟨ih, .whole (h.plain n).folded (Exit.mapTargets_id _).symm
      (fun _ => rfl) (fun _ _ => rfl) rfl, trivial⟩

end Graph.Sequential

/-- A head that is not a jump is owed by a block with an edge back to it. -/
theorem Graph.exists_owes_of_mem_loopHeads {head : Nat}
    (hhead : head ∈ g.loopHeads) (hstays : (g.exit head).isJump = false) :
    ∃ id, id < g.blocks.length ∧ g.Owes id head := by
  obtain ⟨_, hedge⟩ := List.mem_filter.1 hhead
  obtain ⟨id, hid, hback⟩ := List.any_eq_true.1 hedge
  rw [Bool.and_eq_true, decide_eq_true_eq, List.contains_iff_mem] at hback
  exact ⟨id, List.mem_range.1 hid, hback.1, head, hback.2, .here hstays⟩

/-- **Heads have loops.**  If the sections of a method without switches and
exception ranges say where control goes, there are at least as many loops among
them as there are heads of loops that are no jumps. -/
theorem length_loopHeads_le_loopsOf (hswitch : ctx.method.HasNoSwitch)
    (hranges : ctx.method.ranges = []) {built tidied : Graph}
    (hbuilt : ctx.method.graph = .ok built)
    (htidied : built.tidy ctx.method = .ok tidied) {ss : List Section}
    {w : Work} (hparts : tidied.takeApart ctx = .ok (ss, w))
    (hfaithful : tidied.faithful ctx = true) :
    (tidied.loopHeads.filter fun head => !(tidied.exit head).isJump).length ≤
      Section.loopsOf ss := by
  have hseq := sequential_of_tidy hswitch hranges hbuilt htidied
  obtain ⟨t, htold, -, hsame⟩ := Partition.exists_told_of_run hparts
  obtain ⟨heads, hlen, hsettles⟩ :=
    settles_sections hseq _ _ _ _ _ _ _ (hseq.steady hranges)
      (hseq.listed _) (fun _ hnone => by cases hnone) htold
      (hsame.trans hfaithful)
  have hnodup :
      (tidied.loopHeads.filter fun head => !(tidied.exit head).isJump).Nodup :=
    (List.nodup_range.filter _).filter _
  refine Nat.le_trans (List.subperm_of_subset hnodup fun head hmem =>
    ?_).length_le hlen
  obtain ⟨hhead, hstays⟩ := List.mem_filter.1 hmem
  rw [Bool.not_eq_true'] at hstays
  obtain ⟨id, hlt, howes⟩ := Graph.exists_owes_of_mem_loopHeads hhead hstays
  refine (hsettles id ?_ hlt head howes).resolve_right (Set.notMem_empty head)
  rw [headD_range]
  exact Nat.zero_le id

/-- A loop inside a loop: both heads have a loop. -/
theorem length_loopHeads_le_loopsOf_nested :
    let a : Member := ⟨"C", "a", "()Z"⟩
    let b : Member := ⟨"C", "b", "()Z"⟩
    let c : Member := ⟨"C", "c", "()V"⟩
    let d : Member := ⟨"C", "d", "()V"⟩
    let m : Method :=
      { instrs := [.label ⟨0⟩, .call .static a, .ifZero .eq ⟨9⟩, .label ⟨1⟩,
          .call .static b, .ifZero .eq ⟨2⟩, .call .static c, .goto ⟨1⟩,
          .label ⟨2⟩, .call .static d, .goto ⟨0⟩,
          .label ⟨9⟩, .ret none], ranges := [] }
    let ctx : Context := ⟨m, LocalTable.empty.lookup, {}⟩
    m.HasNoSwitch ∧ m.ranges = [] ∧ ∃ built tidied ss w, m.graph = .ok built ∧
      built.tidy m = .ok tidied ∧ tidied.takeApart ctx = .ok (ss, w) ∧
      tidied.faithful ctx = true ∧
      (tidied.loopHeads.filter fun head => !(tidied.exit head).isJump).length =
      2 ∧ 2 ≤ Section.loopsOf ss := by
  intro a b c d m ctx
  have hswitch : m.HasNoSwitch := by decide
  have hrun : (do
      let built ← m.graph
      let tidied ← built.tidy m
      let parts ← tidied.takeApart ctx
      return (tidied.faithful ctx, (tidied.loopHeads.filter fun head =>
        !(tidied.exit head).isJump).length)) =
          .ok (true, 2) := by decide +kernel
  obtain ⟨built, hbuilt, hrun⟩ := bind_eq_ok.1 hrun
  obtain ⟨tidied, htidied, hrun⟩ := bind_eq_ok.1 hrun
  obtain ⟨⟨ss, w⟩, hparts, hrun⟩ := bind_eq_ok.1 hrun
  obtain ⟨hfaithful, hheads⟩ := Prod.mk.inj (Except.ok.inj hrun)
  refine ⟨hswitch, rfl, built, tidied, ss, w, hbuilt, htidied, hparts,
    hfaithful, hheads, ?_⟩
  have hle :=
    @length_loopHeads_le_loopsOf ctx hswitch rfl built tidied hbuilt htidied ss
      w hparts hfaithful
  rwa [hheads] at hle

/-- A loop at the end of a body, where the test before the body goes too when
it fails, is taken for a part of that test: block 1 heads a loop of the graph,
and no section is a loop. -/
theorem loop_at_end_of_body_is_lost :
    let a : Member := ⟨"C", "a", "()Z"⟩
    let b : Member := ⟨"C", "b", "()Z"⟩
    let c : Member := ⟨"C", "c", "()V"⟩
    let m : Method :=
      { instrs :=
        [.call .static a, .ifZero .eq ⟨9⟩, .label ⟨1⟩, .call .static b,
          .ifZero .eq ⟨9⟩, .call .static c, .goto ⟨1⟩, .label ⟨9⟩, .ret none],
          ranges := [] }
    ∃ built tidied sections g, m.graph = .ok built ∧ built.tidy m = .ok tidied ∧
      tidied.partition ⟨m, LocalTable.empty.lookup, {}⟩ = .ok (sections, g) ∧
      Section.loopsOf sections = 0 ∧ tidied.loopHeads = [1] := by
  intro a b c m
  have hrun : (do
      let built ← m.graph
      let tidied ← built.tidy m
      let parts ← tidied.partition ⟨m, LocalTable.empty.lookup, {}⟩
      return (Section.loopsOf parts.1, tidied.loopHeads)) =
        .ok (0, [1]) := by decide +kernel
  obtain ⟨built, hbuilt, hrun⟩ := bind_eq_ok.1 hrun
  obtain ⟨tidied, htidied, hrun⟩ := bind_eq_ok.1 hrun
  obtain ⟨⟨sections, g⟩, hparts, hrun⟩ := bind_eq_ok.1 hrun
  obtain ⟨hloops, hheads⟩ := Prod.mk.inj (Except.ok.inj hrun)
  exact ⟨built, tidied, sections, g, hbuilt, htidied, hparts, hloops, hheads⟩

end Decompiler
