import Decompiler.Proofs.Loops.Count
import Decompiler.Proofs.Placement.Placed

/-!
# Every block is placed once

The sections of a list hold its blocks.  A step cuts its list into slices that
lie next to one another: tests and closing jumps, which leave nothing to hold,
bodies, for whose sections this is known already, and what comes behind.  So
nothing is held twice, and nothing is lost between two slices.

* `StructurerFills`: what is known of a structurer.
* `fills_loop`, `fills_jumpEntered`, `fills_branch`: the kinds of regions.
* `fills_regionSection`: regions, with the regions inside them folded.
* `fills_sections`: lists of blocks, to any depth.
* `inlined_of_partition`: the blocks of a method.
-/

namespace Decompiler

/-- A structurer whose sections hold the blocks of a list. -/
def StructurerFills (g₀ : Graph) (inner : Structurer) : Prop :=
  ∀ (list : List Nat) (hi : Nat) (after : Option Nat) (w : Told)
    (ss : List Section) (w' : Told),
    Steady g₀.place g₀ w → Placed g₀ w list hi →
    (inner list after).told w = .ok (ss, w') →
    g₀.Fills (list.headD hi) hi (Section.inlinedIn ss)

variable {ctx : Context} {g₀ : Graph} {inner : Structurer} {w w₁ w' : Told}
    {first hi : Nat}
  {rest list : List Nat} {after : Option Nat} {s : Section}

/-! ### Tests and bodies -/

/-- Asking a guard changes no blocks. -/
theorem steady_of_guard (hw : Steady g₀.place g₀ w) {body : Nat}
    {cond : Condition}
    (h : (Partition.guard ctx list body after).told w = .ok (cond, w₁)) :
    Steady g₀.place g₀ w₁ ∧ ∀ id, w₁.graph.block id = w.graph.block id := by
  obtain ⟨hw₁, hkept⟩ :=
    (Confined.guard _ _ _ : Confined g₀.place g₀ [] _) _ _ _ hw h
  exact ⟨hw₁, fun id => hkept.others id List.not_mem_nil⟩

/-- Tests and the body behind them. -/
theorem fills_guarded (hinner : StructurerFills g₀ inner)
    (hw : Steady g₀.place g₀ w) {chain slice : List Nat} {body : Nat}
    {exit next : Option Nat} {cond : Condition} {ss : List Section}
    (hlist : Placed g₀ w (chain ++ slice) hi)
    (hguard : (Partition.guard ctx chain body exit).told w = .ok (cond, w₁))
    (hbody : (inner slice next).told w₁ = .ok (ss, w')) :
    g₀.Fills ((chain ++ slice).headD hi) hi (Section.inlinedIn ss) := by
  obtain ⟨hchain, hslice⟩ := linked_append.1 hlist
  obtain ⟨hw₁, hsame⟩ := steady_of_guard hw hguard
  rw [headD_append]
  exact (fills_of_guard hchain (Partition.told_guard hguard).1).append
    (hinner _ _ _ _ _ _ hw₁ (hslice.congr (looksHere_element g₀) fun id _ =>
      hsame id) hbody)

/-- A body and the tests behind it. -/
theorem fills_tested (hinner : StructurerFills g₀ inner)
    (hw : Steady g₀.place g₀ w) {chain slice : List Nat} {body : Nat}
    {next : Option Nat} {cond : Condition} {ss : List Section}
    (hlist : Placed g₀ w (slice ++ chain) hi)
    (hguard : (Partition.guard ctx chain body after).told w = .ok (cond, w₁))
    (hbody : (inner slice next).told w₁ = .ok (ss, w')) :
    g₀.Fills ((slice ++ chain).headD hi) hi (Section.inlinedIn ss) := by
  obtain ⟨hslice, hchain⟩ := linked_append.1 hlist
  obtain ⟨hw₁, hsame⟩ := steady_of_guard hw hguard
  rw [headD_append, ← List.append_nil (Section.inlinedIn ss)]
  exact (hinner _ _ _ _ _ _ hw₁ (hslice.congr (looksHere_element g₀) fun id _ =>
    hsame id)
    hbody).append (fills_of_guard hchain (Partition.told_guard hguard).1)

/-! ### Loops -/

/-- A loop whose last block is a jump holds what stands in front of it. -/
theorem fills_closed {ids : List Nat} (hlist : Placed g₀ w (first :: rest) hi)
    (hcloses : w.graph.exit (rest.getLastD first) = .jumps first)
    (h : g₀.Fills ((first :: rest).dropLast.headD (rest.getLastD first))
      (rest.getLastD first) ids) : g₀.Fills first hi ids := by
  have hlast := hlist.dropLast.2.fills_of_isJump (by rw [hcloses]; rfl)
  have hhead : (first :: rest).dropLast.headD (rest.getLastD first) =
      first := by
    cases rest <;> rfl
  rw [hhead] at h
  rw [← List.append_nil ids]
  exact h.append hlast

/-- A loop holds the blocks of its body. -/
theorem fills_loop (hinner : StructurerFills g₀ inner)
    (hw : Steady g₀.place g₀ w) (hlist : Placed g₀ w (first :: rest) hi)
    (h : (Partition.loop ctx inner first rest after).told w = .ok (s, w')) :
    g₀.Fills first hi s.inlined := by
  have hclosed (hcloses : w.graph.exit (rest.getLastD first) = .jumps first) :
      Steady g₀.place g₀ (w.closed first rest) ∧
        Placed g₀ (w.closed first rest) (first :: rest).dropLast
          (rest.getLastD first) :=
    ⟨hw.redirect (Redirected.closed (hw.jumps _ _ hcloses) w.toWork),
      hlist.closed.dropLast.1⟩
  cases Partition.told_loop h with
  | headTested closes run =>
    obtain ⟨hw₁, hplaced⟩ := hclosed closes
    obtain ⟨hnone, _⟩ | ⟨k, cond, body, w₂, hk, heq, hguard, hbody⟩ :=
      Partition.told_headTested? run
    · cases hnone
    · cases heq
      -- the tests stand in front of the jump that closes the loop
      have hchain :
          (first :: rest).take k = (first :: rest).dropLast.take k := by
        rw [List.dropLast_eq_take, List.take_take, Nat.min_eq_left]
        exact (Graph.le_of_headTests? hk).2
      rw [hchain] at hguard
      rw [← List.take_append_drop k (first :: rest).dropLast] at hplaced
      have hfills := fills_guarded hinner hw₁ hplaced hguard hbody
      rw [List.take_append_drop] at hfills
      exact fills_closed hlist closes hfills
  | forever closes run eq =>
    subst eq
    obtain ⟨hw₁, hplaced⟩ := hclosed closes
    exact fills_closed hlist closes (hinner _ _ _ _ _ _ hw₁ hplaced run)
  | tailTested run =>
    obtain ⟨start, test, tests, cond, body, w₁, _, hdrop, rfl, hguard, hbody⟩ :=
      Partition.told_tailTested run
    rw [← hdrop] at hguard
    rw [← List.take_append_drop start (first :: rest)] at hlist
    have hfills := fills_tested hinner hw hlist hguard hbody
    rwa [List.take_append_drop] at hfills

/-- A loop that is entered by a jump holds the blocks of its body. -/
theorem fills_jumpEntered (hinner : StructurerFills g₀ inner)
    (hw : Steady g₀.place g₀ w) (hlist : Placed g₀ w (first :: rest) hi)
    (hfirst : (w.graph.exit first).isJump = true)
    (h : (Partition.jumpEntered ctx inner first rest after).told w =
      .ok (s, w')) :
    g₀.Fills first hi s.inlined := by
  obtain ⟨start, test, tests, body, others, cond, stmts, w₁, _, _, hdrop, _,
      rfl, hguard, hbody⟩ :=
    Partition.told_jumpEntered hfirst h
  have hrest := hlist.2
  rw [← hdrop] at hguard
  rw [← List.take_append_drop start rest] at hrest
  have hfills := fills_tested hinner hw hrest hguard hbody
  rw [List.take_append_drop] at hfills
  exact (hlist.1.fills_of_isJump hfirst).append hfills

/-! ### Branches -/

/-- The front of a region holds the blocks of its body, up to the
alternative. -/
theorem fills_arm (hkeeps : StructurerConfined g₀.place g₀ inner)
    (hinner : StructurerFills g₀ inner) (hw : Steady g₀.place g₀ w)
    (hlist : Placed g₀ w (first :: rest) hi) {cond : Condition}
    {body : List Section} {others : List Nat}
    (h : (Partition.arm ctx inner first rest after).told w =
      .ok ((cond, body, others), w')) :
    Placed g₀ w' others hi ∧
      g₀.Fills first (others.headD hi) (Section.inlinedIn body) := by
  obtain ⟨n, run, stop, w₁, _, _, hstop, rfl, hguard, hbody⟩ :=
    Partition.told_arm h
  have hsplit :
      ((first :: rest).take run.size ++ ((first :: rest).take stop).drop
        run.size) ++
      (first :: rest).drop stop = first :: rest := by
    rw [List.append_assoc,
      slice_append_drop (Graph.le_of_alternativeStart? hstop),
      List.take_append_drop]
  have hall := hlist
  rw [← hsplit] at hall
  obtain ⟨hfront, hothers⟩ := linked_append.1 hall
  have hfills := fills_guarded hinner hw hfront hguard hbody
  rw [← headD_append, hsplit] at hfills
  obtain ⟨hw₁, hsame⟩ := steady_of_guard hw hguard
  obtain ⟨_, hkept⟩ := hkeeps _ _ _ _ _ hw₁ hbody
  exact ⟨(hothers.congr (looksHere_element g₀) fun id _ => hsame id).kept
    (looksHere_element g₀) hkept (disjoint_drop_slice hlist.nodup _ _), hfills⟩

/-- What comes instead of a body holds its blocks. -/
theorem fills_alternative (hkeeps : StructurerConfined g₀.place g₀ inner)
    (hinner : StructurerFills g₀ inner) {fuel : Nat} {a : Alternative Section}
    (hw : Steady g₀.place g₀ w) (hlist : Placed g₀ w list hi)
    (h : (Partition.alternative ctx inner after fuel list).told w =
      .ok (a, w')) :
    g₀.Fills (list.headD hi) hi (Section.inlinedInstead a) := by
  replace h := Partition.alternativeTaken_of_told h
  induction h with
  | none => exact .nil g₀ hi
  | orIf _ arm _ _ ih =>
    obtain ⟨hw₁, _⟩ := Confined.arm hkeeps _ _ _ _ _ _ hw arm
    obtain ⟨hlist₁, hbody⟩ := fills_arm hkeeps hinner hw hlist arm
    exact hbody.append (ih hw₁ hlist₁)
  | otherwise _ run => exact hinner _ _ _ _ _ _ hw hlist run

/-- A branch region holds the blocks of its bodies. -/
theorem fills_branch (hkeeps : StructurerConfined g₀.place g₀ inner)
    (hinner : StructurerFills g₀ inner) (hw : Steady g₀.place g₀ w)
    (hlist : Placed g₀ w (first :: rest) hi)
    (h : (Partition.branch ctx inner first rest after).told w = .ok (s, w')) :
    g₀.Fills first hi s.inlined := by
  obtain ⟨cond, body, others, a, w₁, rfl, harm, hothers⟩ :=
    Partition.told_branch h
  obtain ⟨hw₁, _⟩ := Confined.arm hkeeps _ _ _ _ _ _ hw harm
  obtain ⟨hlist₁, hbody⟩ := fills_arm hkeeps hinner hw hlist harm
  exact hbody.append (fills_alternative hkeeps hinner hw₁ hlist₁ hothers)

/-! ### Regions inside regions -/

/-- What is known of the way the regions inside a region are structured. -/
def RegionsFill (g₀ : Graph) (nested : Partition.RegionStructurer) : Prop :=
  ∀ (isLoop : Bool) (list : List Nat) (hi : Nat) (after : Option Nat)
    (w : Told) (s : Section)
    (w' : Told), Steady g₀.place g₀ w → Placed g₀ w list hi →
    (nested isLoop list after).told w = .ok (s, w') →
    g₀.Fills (list.headD hi) hi s.inlined

/-- Folding the regions inside a region leaves a region that stands for the same
blocks. -/
theorem placed_of_folding {nested : Partition.RegionStructurer}
    (hnested : RegionsFill g₀ nested) {region left : List Nat}
    (h : Partition.Folding g₀.place g₀ nested region w left w')
    (hlist : Placed g₀ w region hi) : Placed g₀ w' left hi := by
  induction h with
  | done => exact hlist
  | @fold region _ i stop _ next _ _ w _ _ steady here lt there _ run kept
      inside _ ih =>
    have hslice : Placed g₀ w ((region.take stop).drop i) next := by
      rw [← headD_drop_of_getElem? there hi]
      exact hlist.slice i stop
    have hfills := hnested _ _ _ _ _ _ _ steady hslice run
    rw [headD_slice here lt] at hfills
    exact ih (hlist.fold here lt there kept inside hfills)

/-- **Regions.**  The section of a region holds its blocks. -/
theorem fills_regionSection (hkeeps : StructurerConfined g₀.place g₀ inner)
    (hinner : StructurerFills g₀ inner) (fuel : Nat) :
    RegionsFill g₀ (Partition.regionSection ctx inner fuel) := by
  induction fuel with
  | zero =>
    intro isLoop list hi after w s w' hw _ h
    cases Partition.regionFound_of_run hkeeps hw h
  | succ n ih =>
    intro isLoop list hi after w s w' hw hlist h
    cases Partition.regionFound_of_run hkeeps hw h with
    | loop run => exact fills_loop hinner hw hlist run
    | jumpEntered jump run => exact fills_jumpEntered hinner hw hlist jump run
    | branch folding _ run =>
      exact fills_branch hkeeps hinner folding.steady
        (placed_of_folding ih folding hlist) run

/-! ### Lists -/

/-- The section at a position of a list holds the blocks up to the position
after it. -/
theorem fills_sectionFound (hkeeps : StructurerConfined g₀.place g₀ inner)
    (hinner : StructurerFills g₀ inner) (hw : Steady g₀.place g₀ w)
    {i id next : Nat} (hlist : Placed g₀ w (list.drop i) hi)
    (hid : list[i]? = some id)
    (h : Partition.SectionFound ctx inner list after i id w s next w') :
    g₀.Fills id ((list.drop next).headD hi) s.inlined := by
  have helement : Element g₀ w id ((list.drop (i + 1)).headD hi) :=
    hlist.head_of_drop hid
  cases h with
  | folded holds => exact helement.fills_folded holds
  | inline plain noBranch => exact helement.fills_inline plain noBranch
  | region lt head run =>
    have hslice := hlist.slice_of_drop (Nat.le_of_lt lt)
    have hfills :=
      fills_regionSection hkeeps hinner _ _ _ _ _ _ _ _ hw hslice run
    rwa [headD_slice hid lt] at hfills

/-- The sections of a list from a position on. -/
theorem fills_sectionsFound (hkeeps : StructurerConfined g₀.place g₀ inner)
    (hinner : StructurerFills g₀ inner) (hnodup : list.Nodup) {i : Nat}
    {ss : List Section}
    (h : Partition.SectionsFound g₀.place g₀ ctx inner list after i w ss w')
    (hlist : Placed g₀ w (list.drop i) hi) :
    g₀.Fills ((list.drop i).headD hi) hi (Section.inlinedIn ss) := by
  induction h with
  | ends past =>
    rw [List.drop_of_length_le past]
    exact .nil g₀ hi
  | takes steady here lt found kept _ ih =>
    have hrest :=
      (hlist.drop_of_drop (Nat.le_of_lt lt)).kept (looksHere_element g₀) kept
        (disjoint_drop_slice hnodup _ _)
    rw [headD_drop_of_getElem? here]
    exact (fills_sectionFound hkeeps hinner steady hlist here found).append
      (ih hrest)

/-- **Lists of blocks.**  The sections of a list hold the blocks that its
elements stand for. -/
theorem fills_sections (depth : Nat) :
    StructurerFills g₀ (Partition.sections ctx depth) := by
  induction depth with
  | zero =>
    intro list hi after w ss w' _ _ h
    cases h
  | succ n ih =>
    intro list hi after w ss w' hw hlist h
    have hall : Placed g₀ w (list.drop 0) hi := hlist
    have hkeeps : StructurerConfined g₀.place g₀ (Partition.sections ctx n) :=
      Confined.sections n
    exact fills_sectionsFound hkeeps ih hlist.nodup
      (Partition.sectionsFound_of_told hkeeps hw h) hall

/-! ### Methods -/

/-- The blocks of a sequential graph in turn. -/
theorem Graph.Sequential.placed {g : Graph} (h : g.Sequential) (n : Nat) :
    Placed g ⟨Work.start ctx g, true⟩ (List.range n) n := by
  induction n with
  | zero => trivial
  | succ n ih =>
    rw [List.range_succ]
    exact linked_append.2
      ⟨ih, .whole (h.plain n).folded (Exit.mapTargets_id _).symm rfl, trivial⟩

/-- **Every block is placed once.**  If a method without switches and exception
ranges is taken apart, the blocks that its sections hold ascend as they are
read.  All blocks that run into the next one or leave the method are among them,
each once, and none of them is a test. -/
theorem inlined_of_partition (hswitch : ctx.method.HasNoSwitch)
    (hranges : ctx.method.ranges = []) {built tidied : Graph}
    (hbuilt : ctx.method.graph = .ok built)
    (htidied : built.tidy ctx.method = .ok tidied) {ss : List Section}
    {left : Graph} (hparts : tidied.partition ctx = .ok (ss, left)) :
    (Section.inlinedIn ss).Pairwise (· < ·) ∧
      (∀ id < tidied.blocks.length, (∃ next, tidied.exit id = .falls next) ∨
        tidied.exit id = .returns ∨ tidied.exit id = .throws →
        (Section.inlinedIn ss).count id = 1) ∧
      ∀ id ∈ Section.inlinedIn ss,
        id < tidied.blocks.length ∧ (tidied.exit id).isBranch = false := by
  obtain ⟨⟨ss', w⟩, hrun, hparts⟩ := bind_eq_ok.1 hparts
  cases hparts
  have hseq := sequential_of_tidy hswitch hranges hbuilt htidied
  obtain ⟨_, htold, -, -⟩ := Partition.exists_told_of_run hrun
  have hfills :=
    fills_sections _ _ _ _ _ _ _ (hseq.steady hranges) (hseq.placed _) htold
  rw [headD_range] at hfills
  refine ⟨hfills.ascends, fun id hid hexit => ?_,
    fun id hid => ⟨(hfills.inside id hid).2, hfills.noTest id hid⟩⟩
  obtain ⟨htest, hjump⟩ : (tidied.exit id).isBranch = false ∧
      (tidied.exit id).isJump = false := by
    rcases hexit with ⟨next, hexit⟩ | hexit | hexit
    all_goals
      rw [hexit]
      exact ⟨rfl, rfl⟩
  exact hfills.count_eq_one (Nat.zero_le id) hid htest hjump

/-- A branch with two arms inside a loop, and code behind it: the first arm and
the return are held once. -/
theorem inlined_of_partition_nested :
    let a : Member := ⟨"C", "a", "()Z"⟩
    let b : Member := ⟨"C", "b", "()Z"⟩
    let c : Member := ⟨"C", "c", "()V"⟩
    let d : Member := ⟨"C", "d", "()V"⟩
    let m : Method :=
      { instrs :=
        [.label ⟨0⟩, .call .static a, .ifZero .eq ⟨9⟩, .call .static b,
          .ifZero .eq ⟨2⟩, .call .static c, .goto ⟨3⟩, .label ⟨2⟩,
          .call .static d, .label ⟨3⟩,
          .call .static c, .goto ⟨0⟩, .label ⟨9⟩, .ret none], ranges := [] }
    let ctx : Context := ⟨m, LocalTable.empty.lookup, {}⟩
    m.HasNoSwitch ∧ m.ranges = [] ∧ ∃ built tidied ss left,
    m.graph = .ok built ∧
      built.tidy m = .ok tidied ∧ tidied.partition ctx = .ok (ss, left) ∧
      tidied.exit 2 = .falls (some 3) ∧ tidied.exit 7 = .returns ∧
      (Section.inlinedIn ss).Pairwise (· < ·) ∧
      (Section.inlinedIn ss).count 2 = 1 ∧ (Section.inlinedIn ss).count 7 = 1 ∧
      ∀ id ∈ Section.inlinedIn ss, id < 8 ∧
        (tidied.exit id).isBranch = false := by
  intro a b c d m ctx
  have hswitch : m.HasNoSwitch := by decide
  have hrun : (do
      let built ← m.graph
      let tidied ← built.tidy m
      let _ ← tidied.partition ctx
      return (tidied.blocks.length, tidied.exit 2, tidied.exit 7)) =
        .ok (8, .falls (some 3), .returns) := by decide +kernel
  obtain ⟨built, hbuilt, hrun⟩ := bind_eq_ok.1 hrun
  obtain ⟨tidied, htidied, hrun⟩ := bind_eq_ok.1 hrun
  obtain ⟨⟨ss, left⟩, hparts, hrun⟩ := bind_eq_ok.1 hrun
  obtain ⟨hlength, hexits⟩ := Prod.mk.inj (Except.ok.inj hrun)
  obtain ⟨hfalls, hreturns⟩ := Prod.mk.inj hexits
  obtain ⟨hascends, honce, hinside⟩ :=
    @inlined_of_partition ctx hswitch rfl built tidied hbuilt htidied ss
      left hparts
  rw [hlength] at honce hinside
  exact ⟨hswitch, rfl, built, tidied, ss, left, hbuilt, htidied, hparts, hfalls,
    hreturns, hascends, honce 2 (by decide) (.inl ⟨_, hfalls⟩),
    honce 7 (by decide) (.inr (.inl hreturns)), hinside⟩

end Decompiler
