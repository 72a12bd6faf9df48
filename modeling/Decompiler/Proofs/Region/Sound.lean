import Decompiler.Proofs.Region.Course
import Decompiler.Proofs.Region.Right

/-!
# Sections follow control

Every step of taking a graph apart turns right blocks into sections that follow
control, provided the work stays faithful.  The runs inside a section are taken
apart by a structurer of which the same is already known.

* `StructurerFollows`: what is known of a structurer.
* `follows_loop`, `follows_jumpEntered`, `follows_branch`: the kinds of regions.
* `follows_regionSection`: regions, with the regions inside them folded.
* `follows_sections`: lists of blocks, to any depth.
-/

namespace Decompiler

/-- A structurer whose sections follow control through the list. -/
def StructurerFollows (ctx : Context) (g₀ : Graph) (inner : Structurer) :
    Prop :=
  ∀ (list : List Nat) (after : Option Nat) (w : Told) (ss : List Section)
    (w' : Told),
    Sure ctx g₀ w → AllRight ctx g₀ w list → list.Nodup →
    (inner list after).told w = .ok (ss, w') → w'.faithful = true →
    Follows ctx g₀ (w.graph.gain list.head? after)
      (g₀.behavior ctx.method (list.head?.or after)) ss
      (g₀.behavior ctx.method after)

variable {ctx : Context} {g₀ : Graph} {inner : Structurer} {w w' : Told}
    {first : Nat}
  {rest : List Nat} {after : Option Nat} {s : Section}

/-- A guard and the body that it guards, both taken from one list. -/
theorem follows_guarded (hkeeps : StructurerKeeps ctx g₀ inner)
    (hinner : StructurerFollows ctx g₀ inner) (hw : Sure ctx g₀ w)
    {list chain slice : List Nat} (hright : AllRight ctx g₀ w list)
    (hnodup : list.Nodup) (hchain : chain ⊆ list) (hslice : slice.Sublist list)
    {w₁ : Told} {body : Nat} {next : Option Nat} {cond : Condition}
    {ss : List Section}
    (hguard : (Partition.guard ctx chain body after).told w = .ok (cond, w₁))
    (hbody : (inner slice next).told w₁ = .ok (ss, w'))
    (hfaithful : w'.faithful = true) :
    cond.starts = true ∧
      g₀.behavior ctx.method (some (chain.headD 0)) = cond.asking
        (g₀.behavior ctx.method (some body)) (g₀.behavior ctx.method after) ∧
      Follows ctx g₀ 0 (g₀.behavior ctx.method (slice.head?.or next)) ss
        (g₀.behavior ctx.method next) := by
  obtain ⟨hw₁, hkept₁⟩ :=
    (Confined.guard _ _ _ : Keeps ctx g₀ [] _) _ _ _ hw hguard
  obtain ⟨_, hkept⟩ := hkeeps _ _ _ _ _ hw₁ hbody
  obtain ⟨hstarts, hasks⟩ :=
    (hright.mono hchain).guard hw hguard (hkept.faithful hfaithful)
  have hright₁ : AllRight ctx g₀ w₁ slice :=
    (hright.mono hslice.subset).kept hkept₁ fun id _ hid => by cases hid
  have hfollows :=
    hinner _ _ _ _ _ hw₁ hright₁ (hslice.nodup hnodup) hbody hfaithful
  exact ⟨hstarts, hasks, hfollows.mono (Nat.zero_le _)⟩

/-! ### Loops -/

theorem follows_headTested? (hkeeps : StructurerKeeps ctx g₀ inner)
    (hinner : StructurerFollows ctx g₀ inner) (hw : Sure ctx g₀ w)
    (hright : AllRight ctx g₀ w (first :: rest))
    (hnodup : (first :: rest).Nodup)
    (hclose : g₀.behavior ctx.method (some (rest.getLastD first)) =
      g₀.behavior ctx.method (some first))
    (h : (Partition.headTested? ctx inner (first :: rest)
      (rest.getLastD first) after).told w =
      .ok (some s, w')) (hfaithful : w'.faithful = true) :
    Follows ctx g₀ 1 (g₀.behavior ctx.method (some first)) [s]
      (g₀.behavior ctx.method after) := by
  obtain ⟨hnone, _⟩ | ⟨k, cond, body, w₁, hk, heq, hguard, hbody⟩ :=
    Partition.told_headTested? h
  · cases hnone
  · cases heq
    obtain ⟨hpos, hle⟩ := Graph.le_of_headTests? hk
    obtain ⟨hstarts, hasks, hfollows⟩ :=
      follows_guarded hkeeps hinner hw hright hnodup
        (List.take_subset _ _)
        ((List.drop_sublist _ _).trans (List.dropLast_sublist _)) hguard
        hbody hfaithful
    rw [headD_take_cons hpos] at hasks
    rw [head?_body hle, hclose] at hfollows
    exact Follows.whileLoop hasks hstarts hfollows

theorem follows_tailTested (hkeeps : StructurerKeeps ctx g₀ inner)
    (hinner : StructurerFollows ctx g₀ inner) (hw : Sure ctx g₀ w)
    (hright : AllRight ctx g₀ w (first :: rest))
    (hnodup : (first :: rest).Nodup) {last : Nat}
    (h : (Partition.tailTested ctx inner first last (first :: rest) after).told
      w = .ok (s, w'))
    (hfaithful : w'.faithful = true) :
    Follows ctx g₀ 1 (g₀.behavior ctx.method (some first)) [s]
      (g₀.behavior ctx.method after) := by
  obtain ⟨start, test, tests, cond, body, w₁, _, hdrop, rfl, hguard, hbody⟩ :=
    Partition.told_tailTested h
  obtain ⟨hstarts, hasks, hfollows⟩ :=
    follows_guarded hkeeps hinner hw hright hnodup
      (hdrop ▸ List.drop_subset _ _) (List.take_sublist _ _) hguard hbody
      hfaithful
  rw [head?_take_or_of_drop hdrop] at hfollows
  exact Follows.doLoop hasks hstarts hfollows

/-- A loop follows control from its head, which is not a jump. -/
theorem follows_loop (hkeeps : StructurerKeeps ctx g₀ inner)
    (hinner : StructurerFollows ctx g₀ inner) (hw : Sure ctx g₀ w)
    (hright : AllRight ctx g₀ w (first :: rest))
    (hnodup : (first :: rest).Nodup)
    (hfirst : (w.graph.exit first).isJump = false)
    (h : (Partition.loop ctx inner first rest after).told w = .ok (s, w'))
    (hfaithful : w'.faithful = true) :
    Follows ctx g₀ 1 (g₀.behavior ctx.method (some first)) [s]
      (g₀.behavior ctx.method after) := by
  cases Partition.told_loop h with
  | headTested closes run =>
    have hclose := hw.jumps _ _ closes
    have hredirected : Redirected (g₀.behavior ctx.method) w.graph
        (w.closed first rest).graph := Redirected.closed hclose w.toWork
    exact follows_headTested? hkeeps hinner (hw.redirect hredirected)
      (hright.redirect hredirected) hnodup hclose run hfaithful
  | @forever body closes run eq =>
    subst eq
    have hclose : g₀.behavior ctx.method (some (rest.getLastD first)) =
        g₀.behavior ctx.method (some first) := hw.jumps _ _ closes
    -- the last block jumps and the head does not
    obtain ⟨second, others, rfl⟩ : ∃ second others,
        rest = second :: others := by
      cases rest with
      | nil =>
        change w.graph.exit first = .jumps first at closes
        rw [closes] at hfirst
        cases hfirst
      | cons second others => exact ⟨second, others, rfl⟩
    have hredirected : Redirected (g₀.behavior ctx.method) w.graph
        (w.closed first (second :: others)).graph :=
      Redirected.closed hclose w.toWork
    have hfollows := hinner _ _ _ _ _ (hw.redirect hredirected)
      ((hright.redirect hredirected).mono (List.dropLast_subset _))
      (hnodup.sublist (List.dropLast_sublist _)) run hfaithful
    have hgain : (w.closed first (second :: others)).graph.gain
        (first :: second :: others).dropLast.head?
        (some ((second :: others).getLastD first)) = 1 := by
      simp [Graph.gain, (hredirected.isJump_exit first).trans hfirst]
    rw [hgain, hclose] at hfollows
    exact Follows.forever hfollows
  | tailTested run =>
    exact follows_tailTested hkeeps hinner hw hright hnodup run hfaithful

/-- A loop entered by a jump follows control from the jump. -/
theorem follows_jumpEntered (hkeeps : StructurerKeeps ctx g₀ inner)
    (hinner : StructurerFollows ctx g₀ inner) (hw : Sure ctx g₀ w)
    (hright : AllRight ctx g₀ w (first :: rest))
    (hnodup : (first :: rest).Nodup)
    (hfirst : (w.graph.exit first).isJump = true)
    (h : (Partition.jumpEntered ctx inner first rest after).told w =
      .ok (s, w'))
    (hfaithful : w'.faithful = true) :
    Follows ctx g₀ 1 (g₀.behavior ctx.method (some first)) [s]
      (g₀.behavior ctx.method after) := by
  obtain ⟨start, test, tests, body, others, cond, stmts, w₁, _, rfl, hdrop,
    hexit, rfl, hguard, hbody⟩ := Partition.told_jumpEntered hfirst h
  obtain ⟨hstarts, hasks, hfollows⟩ :=
    follows_guarded hkeeps hinner hw hright hnodup
      (hdrop ▸ List.Subset.trans (List.drop_subset _ _)
        (List.subset_cons_self _ _))
      ((List.take_sublist _ _).trans (List.sublist_cons_self _ _)) hguard hbody
      hfaithful
  rw [head?_take_or_of_drop hdrop] at hfollows
  rw [hw.jumps first test hexit]
  exact Follows.whileLoop hasks hstarts hfollows

/-! ### Branches -/

/-- The front of a region asks its guard before the body and the alternative. -/
theorem follows_arm (hkeeps : StructurerKeeps ctx g₀ inner)
    (hinner : StructurerFollows ctx g₀ inner) (hw : Sure ctx g₀ w)
    (hright : AllRight ctx g₀ w (first :: rest))
    (hnodup : (first :: rest).Nodup) {cond : Condition} {body : List Section}
    {others : List Nat}
    (h : (Partition.arm ctx inner first rest after).told w =
      .ok ((cond, body, others), w'))
    (hfaithful : w'.faithful = true) :
    ∃ yes, cond.starts = true ∧
      Follows ctx g₀ 0 yes body (g₀.behavior ctx.method after) ∧
        g₀.behavior ctx.method (some first) =
        cond.asking yes (g₀.behavior ctx.method (others.head?.or after)) ∧
      AllRight ctx g₀ w' others ∧ others.Nodup := by
  obtain ⟨n, run, stop, w₁, _, hrun, hstop, rfl, hguard, hbody⟩ :=
    Partition.told_arm h
  obtain ⟨hstarts, hasks, hfollows⟩ :=
    follows_guarded hkeeps hinner hw hright hnodup
      (List.take_subset _ _)
      ((List.drop_sublist _ _).trans (List.take_sublist _ _)) hguard
      hbody hfaithful
  have hfits := Graph.fits_of_testRun? hrun
  obtain ⟨hinside, hpast⟩ := hfits.head?_of_alternativeStart? hstop
  rw [headD_take_cons hfits.size, ← hpast] at hasks
  rw [hinside] at hfollows
  obtain ⟨hw₁, hkept₁⟩ :=
    (Confined.guard _ _ _ : Keeps ctx g₀ [] _) _ _ _ hw hguard
  obtain ⟨_, hkept⟩ := hkeeps _ _ _ _ _ hw₁ hbody
  have hothers :=
    (hright.mono (List.drop_subset stop _)).kept hkept₁ fun id _ hid => by
      cases hid
  exact ⟨_, hstarts, hfollows, hasks,
    hothers.kept hkept (disjoint_drop_slice hnodup _ _),
    hnodup.sublist (List.drop_sublist _ _)⟩

/-- What comes instead of a body follows control from where it starts. -/
theorem follows_alternative (hkeeps : StructurerKeeps ctx g₀ inner)
    (hinner : StructurerFollows ctx g₀ inner) {fuel : Nat} {list : List Nat}
    {a : Alternative Section} (hw : Sure ctx g₀ w)
    (hright : AllRight ctx g₀ w list) (hnodup : list.Nodup)
    (h : (Partition.alternative ctx inner after fuel list).told w = .ok (a, w'))
    (hfaithful : w'.faithful = true) :
    FollowsAlternative ctx g₀ (g₀.behavior ctx.method (list.head?.or after)) a
      (g₀.behavior ctx.method after) := by
  replace h := Partition.alternativeTaken_of_told h
  induction h with
  | none => exact FollowsAlternative.none _
  | orIf _ arm run _ ih =>
    obtain ⟨hw₁, _⟩ := Confined.arm hkeeps _ _ _ _ _ _ hw arm
    obtain ⟨_, hkept⟩ := Confined.alternative hkeeps _ _ _ _ _ _ hw₁ run
    obtain ⟨yes, _, hbody, hasks, hright₁, hnodup₁⟩ :=
      follows_arm hkeeps hinner hw hright
        hnodup arm (hkept.faithful hfaithful)
    exact FollowsAlternative.orIf hasks hbody (ih hw₁ hright₁ hnodup₁ hfaithful)
  | otherwise _ run =>
    exact FollowsAlternative.otherwise
      ((hinner _ _ _ _ _ hw hright hnodup run hfaithful).mono (Nat.zero_le _))

/-- A branch region follows control from its first test. -/
theorem follows_branch (hkeeps : StructurerKeeps ctx g₀ inner)
    (hinner : StructurerFollows ctx g₀ inner) (hw : Sure ctx g₀ w)
    (hright : AllRight ctx g₀ w (first :: rest))
    (hnodup : (first :: rest).Nodup)
    (h : (Partition.branch ctx inner first rest after).told w = .ok (s, w'))
    (hfaithful : w'.faithful = true) :
    Follows ctx g₀ 1 (g₀.behavior ctx.method (some first)) [s]
      (g₀.behavior ctx.method after) := by
  obtain ⟨cond, body, others, a, w₁, rfl, harm, hothers⟩ :=
    Partition.told_branch h
  obtain ⟨hw₁, _⟩ := Confined.arm hkeeps _ _ _ _ _ _ hw harm
  obtain ⟨_, hkept⟩ := Confined.alternative hkeeps _ _ _ _ _ _ hw₁ hothers
  obtain ⟨yes, hstarts, hbody, hasks, hright₁, hnodup₁⟩ :=
    follows_arm hkeeps hinner hw hright
      hnodup harm (hkept.faithful hfaithful)
  exact Follows.ifElse hasks hstarts hbody
    (follows_alternative hkeeps hinner hw₁ hright₁ hnodup₁ hothers hfaithful)

/-! ### Regions inside regions -/

/-- What is known of the way the regions inside a region are structured. -/
def RegionsFollow (ctx : Context) (g₀ : Graph)
    (nested : Partition.RegionStructurer) : Prop :=
  ∀ (isLoop : Bool) (list : List Nat) (after : Option Nat) (w : Told)
    (s : Section) (w' : Told),
    Sure ctx g₀ w → AllRight ctx g₀ w list → list.Nodup →
    (isLoop = true → ∀ head ∈ list.head?, (w.graph.exit head).isJump = false) →
    (nested isLoop list after).told w = .ok (s, w') → w'.faithful = true →
    Follows ctx g₀ 1 (g₀.behavior ctx.method (list.head?.or after)) [s]
      (g₀.behavior ctx.method after)

/-- When a region inside a list has been folded, the blocks that are left are
right. -/
theorem AllRight.fold {region : List Nat} {i id stop : Nat} {s : Section}
    {next : Option Nat} (h : AllRight ctx g₀ w region) (hnodup : region.Nodup)
    (hid : region[i]? = some id) (hstop : i + 1 ≤ stop)
    (hkept : Kept ((region.take stop).drop i) w w')
    (hlt : id < w'.graph.blocks.length)
    (hfollows : Follows ctx g₀ 1 (g₀.behavior ctx.method (some id)) [s]
      (g₀.behavior ctx.method next)) :
    AllRight ctx g₀ { w' with graph := w'.graph.fold id s next }
      (region.take (i + 1) ++ region.drop stop) := by
  intro x hx
  by_cases heq : x = id
  · subst heq
    refine .folded ?_ ?_ hfollows
    · rw [Graph.fold, Graph.block_modify_self _ _ hlt]
    · rw [Graph.fold, Graph.block_modify_self _ _ hlt]
  · -- the blocks of the region that was folded are gone
    have hsame : (w'.graph.fold id s next).block x = w'.graph.block x := by
      rw [Graph.fold, Graph.block_modify_of_ne _ _ (Ne.symm heq)]
    have hout : x ∉ (region.take stop).drop i := by
      rcases List.mem_append.1 hx with hbefore | hafter
      · rw [List.take_add_one, hid, List.mem_append, Option.toList_some,
          List.mem_singleton] at hbefore
        exact disjoint_take_slice hnodup (by omega) (hbefore.resolve_right heq)
      · exact disjoint_drop_slice hnodup _ _ hafter
    rw [hsame, hkept.others x hout]
    refine h x ((List.mem_append.1 hx).elim (fun hbefore => ?_) fun hafter => ?_)
    · exact List.take_subset _ _ hbefore
    · exact List.drop_subset _ _ hafter

/-- Folding the regions inside a region leaves right blocks. -/
theorem right_of_folding {nested : Partition.RegionStructurer}
    (hnested : RegionsFollow ctx g₀ nested) {region left : List Nat}
    (h : Partition.Folding (g₀.behavior ctx.method) g₀ nested region w left w')
    (hright : AllRight ctx g₀ w region) (hnodup : region.Nodup)
    (hfaithful : w'.faithful = true) :
    AllRight ctx g₀ w' left ∧ left.Nodup := by
  induction h with
  | done => exact ⟨hright, hnodup⟩
  | @fold region _ i stop _ _ _ _ _ _ _ steady here lt _ head run kept inside
      rest ih =>
    have hslice : ((region.take stop).drop i).Sublist region :=
      (List.drop_sublist _ _).trans (List.take_sublist _ _)
    have hfollows := hnested _ _ _ _ _ _ steady (hright.mono hslice.subset)
      (hslice.nodup hnodup) head run (rest.faithful hfaithful)
    rw [head?_slice here lt, Option.some_or] at hfollows
    have hleft : (region.take (i + 1) ++ region.drop stop).Sublist region :=
      take_append_drop_sublist lt
    exact ih (hright.fold hnodup here lt kept inside hfollows)
      (hleft.nodup hnodup) hfaithful

/-- **Regions.**  The section of a region follows control from its head. -/
theorem follows_regionSection (hkeeps : StructurerKeeps ctx g₀ inner)
    (hinner : StructurerFollows ctx g₀ inner) (fuel : Nat) :
    RegionsFollow ctx g₀ (Partition.regionSection ctx inner fuel) := by
  induction fuel with
  | zero =>
    intro isLoop list after w s w' hw _ _ _ h _
    cases Partition.regionFound_of_run hkeeps hw h
  | succ n ih =>
    intro isLoop list after w s w' hw hright hnodup hloop h hfaithful
    cases Partition.regionFound_of_run hkeeps hw h with
    | loop run =>
      exact follows_loop hkeeps hinner hw hright hnodup (hloop rfl _ rfl) run
        hfaithful
    | jumpEntered jump run =>
      exact follows_jumpEntered hkeeps hinner hw hright hnodup jump run
        hfaithful
    | branch folding kept run =>
      obtain ⟨hright₁, hnodup₁⟩ :=
        right_of_folding ih folding hright hnodup (kept.faithful hfaithful)
      exact follows_branch hkeeps hinner folding.steady hright₁ hnodup₁ run
        hfaithful

/-! ### Lists -/

/-- The section at a position of a list follows control to the position after
it. -/
theorem follows_sectionFound (hkeeps : StructurerKeeps ctx g₀ inner)
    (hinner : StructurerFollows ctx g₀ inner) (hw : Sure ctx g₀ w)
    {list : List Nat} {i id next : Nat}
    (hright : AllRight ctx g₀ w (list.drop i)) (hnodup : list.Nodup)
    (hid : list[i]? = some id)
    (h : Partition.SectionFound ctx inner list after i id w s next w')
    (hfaithful : w'.faithful = true) :
    Follows ctx g₀ (w.graph.gain (some id) after)
      (g₀.behavior ctx.method (some id)) [s]
      (g₀.behavior ctx.method (list[next]?.or after)) := by
  have hhere : Right ctx g₀ id (w.graph.block id) := by
    refine hright id (List.mem_of_getElem? (i := 0) ?_)
    rw [List.getElem?_drop, Nat.add_zero, hid]
  cases h with
  | folded holds =>
    have hgoes := (Bool.and_eq_true_iff.1 hfaithful).2
    exact (hhere.follows_folded hw holds hgoes).mono (Graph.gain_le _ _ _)
  | inline plain =>
    have hgoes := (Bool.and_eq_true_iff.1 hfaithful).2
    refine hhere.follows_inline hw plain (fun hsome => ?_) hgoes
    rw [Option.isSome_or, hsome, Bool.or_true]
  | region lt head run =>
    have hslice : ((list.take next).drop i).Sublist (list.drop i) :=
      (List.take_sublist _ _).drop i
    have hfollows := follows_regionSection hkeeps hinner _ _ _ _ _ _ _ hw
      (hright.mono hslice.subset)
      ((hslice.trans (List.drop_sublist _ _)).nodup hnodup)
      (fun hl => Partition.isJump_head?_slice hid lt (head hl)) run hfaithful
    rw [head?_slice hid lt, Option.some_or] at hfollows
    exact hfollows.mono (Graph.gain_le _ _ _)

/-- The sections of a list from a position on. -/
theorem follows_sectionsFound (hkeeps : StructurerKeeps ctx g₀ inner)
    (hinner : StructurerFollows ctx g₀ inner) {list : List Nat}
    (hnodup : list.Nodup) {i : Nat} {ss : List Section}
    (h : Partition.SectionsFound (g₀.behavior ctx.method) g₀ ctx inner list
      after i w ss w')
    (hright : AllRight ctx g₀ w (list.drop i))
    (hfaithful : w'.faithful = true) :
    Follows ctx g₀ (w.graph.gain list[i]? after)
      (g₀.behavior ctx.method (list[i]?.or after)) ss
        (g₀.behavior ctx.method after) := by
  induction h with
  | ends past =>
    rw [List.getElem?_eq_none past]
    exact Follows.nil _
  | @takes i id next _ _ w w₁ _ steady here lt found kept rest ih =>
    have hright₁ : AllRight ctx g₀ w₁ (list.drop next) :=
      (hright.mono
        (List.drop_sublist_drop_left list (Nat.le_of_lt lt)).subset).kept kept
        (disjoint_drop_slice hnodup _ _)
    have hrest := ih hright₁ hfaithful
    rw [here, Option.some_or]
    exact (follows_sectionFound hkeeps hinner steady hright hnodup here found
      (rest.faithful hfaithful)).cons (hrest.mono (Nat.zero_le _))

/-- **Lists of blocks.**  While the work stays faithful, the sections of a list
of right blocks follow control through the list. -/
theorem follows_sections (depth : Nat) :
    StructurerFollows ctx g₀ (Partition.sections ctx depth) := by
  induction depth with
  | zero =>
    intro list after w ss w' _ _ _ h _
    cases h
  | succ n ih =>
    intro list after w ss w' hw hright hnodup h hfaithful
    rw [List.head?_eq_getElem?]
    have hall : AllRight ctx g₀ w (list.drop 0) := hright
    have hkeeps : StructurerKeeps ctx g₀ (Partition.sections ctx n) :=
      Confined.sections n
    exact follows_sectionsFound hkeeps ih hnodup
      (Partition.sectionsFound_of_told hkeeps hw h) hall
      hfaithful

end Decompiler
