import Decompiler.Proofs.BackEdges.Recorded
import Decompiler.Proofs.Region.Cuts
import Decompiler.Proofs.Region.Found

/-!
# Taking a graph apart under observation

Two recursions take lists of blocks apart: one finds the section at each
position of a list, the other folds the regions inside a region.  Both look for
loops in the list that they have, in the graph as it is by then.

Here an observer looks on.  He is shown the list and the graph before each of
their steps, when they ask for the next block of the list, and again after each
change to blocks of a list.  So he sees the graph after every change.  He may
stop the work with a fault.  One who objects only if some loop is not found
never does so: edges back stay on record, since what is folded is always in
front of what comes after it.

* `Partition.observed`: what comes of the work under observation.
* `Unnoticed`: work that an observer lets pass; one rule for each way in which
  steps are put together, and one for each step.
* `Unnoticed.sections`: all of taking apart passes.
* `run_observed_eq_takeApart`: loops are found throughout.
-/

namespace Decompiler

/-- One who is shown the lists that are being taken apart, with the graph as it
is then, and may object. -/
abbrev Observer := List Nat → Graph → Option Fault

/-- The list of which a step takes the next block. -/
def Step.listBefore : Step → Option (List Nat)
  | .ask (.next list _) => some list
  | _ => none

/-- The list of which a step has changed blocks. -/
def Step.listAfter : Step → Option (List Nat)
  | .change list _ => some list
  | _ => none

/-- Shows a list to the observer, if there is one to show. -/
def Observer.look (watch : Observer) (list? : Option (List Nat)) (g : Graph) :
    Except Fault Unit :=
  match list?.bind fun list => watch list g with
  | some fault => .error fault
  | none => .ok ()

/-- What comes of the work under observation. -/
def Partition.observed {α : Type} (watch : Observer) :
    Partition α → Work → Except Fault (α × Work)
  | done a, w => .ok (a, w)
  | fail fault, _ => .error fault
  | step s next, w => do
    watch.look s.listBefore w.graph
    let r ← s.run w
    watch.look s.listAfter r.2.graph
    (next r.1).observed watch r.2

/-- Under observation one way to take a graph apart after the other. -/
theorem Partition.observed_bind {α β : Type} (watch : Observer)
    (x : Partition α) (f : α → Partition β) (w : Work) :
    (x >>= f).observed watch w =
      x.observed watch w >>= fun r => (f r.1).observed watch r.2 := by
  induction x generalizing w with
  | done a => rfl
  | fail fault => rfl
  | step s next ih =>
    change (do
      watch.look s.listBefore w.graph
      let r ← s.run w
      watch.look s.listAfter r.2.graph
      ((next r.1) >>= f).observed watch r.2) = _
    simp only [observed, bind_assoc]
    refine bind_congr fun _ => bind_congr fun r => bind_congr fun _ => ?_
    exact ih r.1 r.2

/-! ## Work that passes -/

/-- Work that an observer lets pass if edges back are on record at first.  It
keeps them on record, and its result has a property. -/
structure Unnoticed (watch : Observer) {α : Type} (x : Partition α)
    (P : α → Prop) : Prop where
  same : ∀ w : Work, w.graph.Recorded → x.observed watch w = x.run w
  yields : ∀ (w : Work) (a : α) (w' : Work), w.graph.Recorded →
    x.run w = .ok (a, w') → w'.graph.Recorded ∧ P a

/-- Work of which nothing is known but that it passes. -/
abbrev Passes (watch : Observer) {α : Type} (x : Partition α) : Prop :=
  Unnoticed watch x fun _ => True

namespace Unnoticed

variable {α β : Type} {watch : Observer} {P : α → Prop} {Q : β → Prop}

/-! ### Putting steps together -/

/-- What comes next may rely on what is known of the result before. -/
theorem bind {x : Partition β} {f : β → Partition α}
    (hx : Unnoticed watch x Q) (hf : ∀ b, Q b → Unnoticed watch (f b) P) :
    Unnoticed watch (x >>= f) P where
  same w hw := by
    rw [Partition.observed_bind, Partition.run_bind, hx.same w hw]
    cases hrun : x.run w with
    | error fault => rfl
    | ok r =>
      obtain ⟨hw₁, hr⟩ := hx.yields w r.1 r.2 hw hrun
      exact (hf r.1 hr).same r.2 hw₁
  yields w a w' hw h := by
    rw [Partition.run_bind] at h
    obtain ⟨r, hfirst, hrest⟩ := bind_eq_ok.1 h
    obtain ⟨hw₁, hr⟩ := hx.yields w r.1 r.2 hw hfirst
    exact (hf r.1 hr).yields r.2 a w' hw₁ hrest

theorem pure {a : α} (h : P a) : Unnoticed watch (pure a) P where
  same _ _ := rfl
  yields _ _ _ hw h' := by
    cases h'
    exact ⟨hw, h⟩

theorem fail (fault : Fault) :
    Unnoticed watch (Partition.fail fault : Partition α) P where
  same _ _ := rfl
  yields _ _ _ _ h := by cases h

/-! ### Steps -/

/-- What is asked without going on in a list is not shown. -/
theorem ask {q : Query} {f : q.Answer → Partition α}
    (hq : Step.listBefore (.ask q) = none)
    (hf : ∀ a, Unnoticed watch (f a) P) :
    Unnoticed watch (Partition.ask q >>= f) P where
  same w hw := by
    change (watch.look (Step.listBefore (.ask q)) w.graph >>= fun _ =>
      (f (q.answer w)).observed watch w) = _
    rw [hq]
    exact (hf _).same w hw
  yields w := (hf _).yields w

/-- Members of a list that follow one another. -/
theorem slice {list : List Nat} {start stop : Nat} {f : List Nat → Partition α}
    (hf : Unnoticed watch (f ((list.take stop).drop start)) P) :
    Unnoticed watch (Partition.slice list start stop >>= f) P :=
  ⟨hf.same, hf.yields⟩

theorem exit {id : Nat} {f : Exit → Partition α}
    (hf : ∀ e, Unnoticed watch (f e) P) :
    Unnoticed watch (Partition.exit id >>= f) P where
  same w := (hf _).same w
  yields w := (hf _).yields w

theorem block {id : Nat} {f : Block → Partition α}
    (hf : ∀ b, Unnoticed watch (f b) P) :
    Unnoticed watch (Partition.block id >>= f) P := by
  refine bind (Q := fun _ => True) ?_ fun b _ => hf b
  refine ask rfl fun g => ?_
  split
  · exact pure trivial
  · exact fail _

theorem irreducible (id : Nat) :
    Unnoticed watch (Partition.irreducible id : Partition α) P :=
  ask rfl fun _ => fail _

theorem guard (ctx : Context) (chain : List Nat) (body : Nat)
    (after : Option Nat) :
    Passes watch (Partition.guard ctx chain body after) where
  same w _ := by
    rw [Partition.run_guard]
    change (((w.graph.guard ctx chain body after).map fun c => (c, w)) >>=
      fun r => .ok (r.1, r.2)) = _
    cases w.graph.guard ctx chain body after <;> rfl
  yields w c w' hw h := by
    rw [Partition.run_guard] at h
    obtain ⟨_, _, heq⟩ := bind_eq_ok.1 h
    cases heq
    exact ⟨hw, trivial⟩

theorem use (t : TryGroup) : Passes watch (Partition.use t) where
  same _ _ := rfl
  yields w u w' hw h := by
    cases h
    exact ⟨hw, trivial⟩

theorem tryPlan? (list : List Nat) (id : Nat) :
    Passes watch (Partition.tryPlan? list id) := by
  refine ask rfl fun groups => ?_
  split
  · exact pure trivial
  · refine ask rfl fun plan => ?_
    split
    · exact pure trivial
    · exact bind (use _) fun _ _ => pure trivial

theorem single (id : Nat) (next : Option Nat) :
    Passes watch (Partition.single id next) := by
  refine ⟨fun w _ => ?_, fun w s w' hw h => ⟨?_, trivial⟩⟩
  · change ((Step.single id next).run w >>= fun r => .ok (r.1, r.2)) = _
    cases hfolded : (w.graph.block id).folded with
    | some s =>
      rw [Partition.run_single_of_folded hfolded, Step.run, hfolded]
      rfl
    | none =>
      rw [Partition.run_single_of_plain hfolded, Step.run, hfolded]
      rfl
  · cases hfolded : (w.graph.block id).folded with
    | some s =>
      rw [Partition.run_single_of_folded hfolded] at h
      cases h
      exact hw.unfold id
    | none =>
      rw [Partition.run_single_of_plain hfolded] at h
      cases h
      exact hw

section Watched

variable (hwatch : ∀ (g : Graph) (list : List Nat), g.Recorded →
  list.Pairwise (· < ·) → watch list g = none)
include hwatch

/-- The observer is shown an ascending list, whose next block is asked for. -/
theorem next {list : List Nat} {i : Nat} {f : Option Nat → Partition α}
    (hlist : list.Pairwise (· < ·)) (hf : Unnoticed watch (f list[i]?) P) :
    Unnoticed watch (Partition.next? list i >>= f) P where
  same w hw := by
    change (watch.look (some list) w.graph >>= fun _ =>
      (f list[i]?).observed watch w) = _
    rw [Observer.look, Option.bind_some, hwatch _ _ hw hlist]
    exact hf.same w hw
  yields := hf.yields

/-- The observer is shown an ascending list after a change that keeps edges back
on record. -/
theorem change {list : List Nat} {f : Graph → Graph}
    (hlist : list.Pairwise (· < ·))
    (hf : ∀ g : Graph, g.Recorded → (f g).Recorded) :
    Passes watch (Partition.change list f) where
  same w hw := by
    change (watch.look (some list) (f w.graph) >>= fun _ => _) = _
    rw [Observer.look, Option.bind_some, hwatch _ _ (hf _ hw) hlist]
    rfl
  yields w u w' hw h := by
    cases h
    exact ⟨hf _ hw, trivial⟩

end Watched

end Unnoticed

/-- A way to structure ascending runs of blocks that passes. -/
def StructurerPasses (watch : Observer) (inner : Structurer) : Prop :=
  ∀ (list : List Nat) (after : Option Nat), list.Pairwise (· < ·) →
    Passes watch (inner list after)

/-- A way to structure regions of ascending blocks that passes. -/
def RegionsPass (watch : Observer) (nested : Partition.RegionStructurer) :
    Prop :=
  ∀ (isLoop : Bool) (list : List Nat) (after : Option Nat),
    list.Pairwise (· < ·) → Passes watch (nested isLoop list after)

namespace Unnoticed

variable {watch : Observer} {ctx : Context} {inner : Structurer}
  {nested : Partition.RegionStructurer} {list region rest : List Nat}

/-! ### Regions -/

theorem headTested? (hinner : StructurerPasses watch inner)
    (hregion : region.Pairwise (· < ·)) (closing : Nat) (after : Option Nat) :
    Passes watch (Partition.headTested? ctx inner region closing after) := by
  refine ask rfl fun found => ?_
  split
  · exact pure trivial
  · exact ask rfl fun tests => ask rfl fun first =>
      (guard ..).bind fun cond _ => slice
        ((hinner _ _ (pairwise_slice hregion _ _)).bind fun body _ =>
          pure trivial)

theorem tailTested (hinner : StructurerPasses watch inner) (first last : Nat)
    (hregion : region.Pairwise (· < ·)) (after : Option Nat) :
    Passes watch (Partition.tailTested ctx inner first last region after) := by
  refine ask rfl fun start => ask rfl fun tests => ?_
  split
  · exact irreducible _
  · exact (guard ..).bind fun cond _ => slice
      ((hinner _ _ (pairwise_slice hregion _ _)).bind fun body _ =>
        pure trivial)

theorem jumpEntered (hinner : StructurerPasses watch inner) {first : Nat}
    (hregion : (first :: rest).Pairwise (· < ·)) (after : Option Nat) :
    Passes watch (Partition.jumpEntered ctx inner first rest after) := by
  have hrest := (List.pairwise_cons.1 hregion).2
  refine ask rfl fun g => ?_
  split
  · refine ask rfl fun chain => ?_
    split
    · exact irreducible _
    · exact irreducible _
    · exact (guard ..).bind fun cond _ => slice
        ((hinner _ _ (pairwise_slice hrest _ _)).bind fun stmts _ =>
          pure trivial)
  · exact irreducible _

/-- The blocks of an alternative ascend as those of the region do. -/
theorem arm (hinner : StructurerPasses watch inner) {first : Nat}
    (hregion : (first :: rest).Pairwise (· < ·)) (after : Option Nat) :
    Unnoticed watch (Partition.arm ctx inner first rest after) fun r =>
      r.2.2.Pairwise (· < ·) := by
  refine ask rfl fun g => ask rfl fun found => ?_
  split
  · exact irreducible _
  · refine ask rfl fun tests => (guard ..).bind fun cond _ => ?_
    split
    · exact ask rfl fun test => fail _
    · exact slice ((hinner _ _ (pairwise_slice hregion _ _)).bind fun body _ =>
        slice (pure (pairwise_slice hregion _ _)))

theorem alternative (hinner : StructurerPasses watch inner)
    (after : Option Nat) (fuel : Nat) (hregion : region.Pairwise (· < ·)) :
    Passes watch (Partition.alternative ctx inner after fuel region) := by
  induction fuel generalizing region with
  | zero =>
    cases region with
    | nil => exact pure trivial
    | cons first rest => exact fail _
  | succ n ih =>
    cases region with
    | nil => exact pure trivial
    | cons first rest =>
      refine exit fun e => ?_
      split
      · exact (arm hinner hregion after).bind fun r hothers =>
          (ih hothers).bind fun others _ => pure trivial
      · exact (hinner _ _ hregion).bind fun body _ => pure trivial

theorem branch (hinner : StructurerPasses watch inner) {first : Nat}
    (hregion : (first :: rest).Pairwise (· < ·)) (after : Option Nat) :
    Passes watch (Partition.branch ctx inner first rest after) :=
  (arm hinner hregion after).bind fun _ hothers =>
    (alternative hinner after _ hothers).bind fun _ _ => pure trivial

/-! ### Switches and try statements -/

theorem cases (hinner : StructurerPasses watch inner)
    (hlist : list.Pairwise (· < ·)) (after : Option Nat)
    (spans : List CaseSpan) :
    Passes watch (Partition.cases inner list after spans) := by
  induction spans with
  | nil => exact pure trivial
  | cons c spans ih =>
    have hrest (body : List Section) : Passes watch (do
        return (⟨c.keys, c.isDefault, c.breaks, body⟩ : Case Section) ::
          (← Partition.cases inner list after spans)) :=
      ih.bind fun cs _ => pure trivial
    unfold Partition.cases
    dsimp only
    split
    · exact slice ((hinner _ _ (pairwise_slice hlist _ _)).bind fun body _ =>
        hrest body)
    · exact hrest []

theorem switch (hinner : StructurerPasses watch inner)
    (hlist : list.Pairwise (· < ·)) (id : Nat) (plan : SwitchPlan)
    (after : Option Nat) :
    Passes watch (Partition.switch inner list id plan after) :=
  (cases hinner hlist _ _).bind fun _ _ => pure trivial

theorem handlers (hinner : StructurerPasses watch inner)
    (hlist : list.Pairwise (· < ·)) (after : Option Nat)
    (spans : List HandlerSpan) :
    Passes watch (Partition.handlers inner list after spans) := by
  induction spans with
  | nil => exact pure trivial
  | cons h spans ih =>
    exact slice ((hinner _ _ (pairwise_slice hlist _ _)).bind fun body _ =>
      ih.bind fun hs _ => pure trivial)

theorem tryStatement (hinner : StructurerPasses watch inner)
    (hlist : list.Pairwise (· < ·)) (i : Nat) (group : TryGroup)
    (plan : TryPlan) (after : Option Nat) :
    Passes watch (Partition.tryStatement inner list i group plan after) :=
  (use group).bind fun _ _ => slice
    ((hinner _ _ (pairwise_slice hlist _ _)).bind fun _ _ =>
      (handlers hinner hlist _ _).bind fun _ _ => pure trivial)

/-! ### Lists and regions -/

theorem before {stop : Nat} {k : Nat → Partition Section}
    (hk : ∀ next, Passes watch (k next)) :
    Passes watch
      (match region[stop]? with
        | some next => do return some (stop, ← k next)
        | none => return none) := by
  split
  · exact (hk _).bind fun s _ => pure trivial
  · exact pure trivial

theorem nestedAt (hinner : StructurerPasses watch inner)
    (hnested : RegionsPass watch nested) (hregion : region.Pairwise (· < ·))
    (i id : Nat) :
    Passes watch (Partition.nestedAt inner nested region i id) := by
  refine block fun b => ?_
  dsimp only
  split
  · exact pure trivial
  refine (tryPlan? region id).bind fun found _ => ?_
  split
  · exact before fun next => tryStatement hinner hregion _ _ _ _
  split
  · exact ask rfl fun plan =>
      before fun next => switch hinner hregion _ _ _
  refine ask rfl fun last => ?_
  split
  · exact before fun next =>
      slice (hnested _ _ _ (pairwise_slice hregion _ _))
  refine ask rfl fun jumps => ?_
  split
  · refine ask rfl fun stop => ?_
    split
    · exact before fun next =>
        slice (hnested _ _ _ (pairwise_slice hregion _ _))
    · exact pure trivial
  · exact pure trivial

section Watched

variable (hwatch : ∀ (g : Graph) (list : List Nat), g.Recorded →
  list.Pairwise (· < ·) → watch list g = none)
include hwatch

/-- Continuing at the jump that closes a loop makes no new edges back. -/
theorem loop (hinner : StructurerPasses watch inner) {first : Nat}
    (hregion : (first :: rest).Pairwise (· < ·)) (after : Option Nat) :
    Passes watch (Partition.loop ctx inner first rest after) := by
  have hforever : Passes watch (do
      let body ← inner (← Partition.slice (first :: rest) 0 rest.length)
        (some (rest.getLastD first))
      return Section.whileLoop (.const true) body) :=
    slice ((hinner _ _ (pairwise_slice hregion _ _)).bind fun body _ =>
      pure trivial)
  unfold Partition.loop
  refine exit fun e => ?_
  split
  · refine slice ((change hwatch hregion fun g hg =>
      hg.foldl_continueAt _ _ _).bind fun _ _ => exit fun e => ?_)
    dsimp only
    split
    · refine (headTested? hinner hregion _ _).bind fun found _ => ?_
      cases found with
      | none => exact hforever
      | some s => exact pure trivial
    · exact hforever
  · exact tailTested hinner _ _ hregion after

/-- Folding the regions inside a region.  What is folded ends in front of what
comes after it, so that the new edge leads forward. -/
theorem foldNested (hinner : StructurerPasses watch inner)
    (hnested : RegionsPass watch nested) (fuel i : Nat)
    (hregion : region.Pairwise (· < ·)) :
    Unnoticed watch (Partition.foldNested inner nested fuel i region)
      (·.Pairwise (· < ·)) := by
  induction fuel generalizing i region with
  | zero =>
    refine next hwatch hregion ?_
    split
    · exact pure hregion
    · exact fail _
  | succ n ih =>
    refine next hwatch hregion ?_
    split
    · exact pure hregion
    · rename_i id hid
      refine (nestedAt hinner hnested hregion i id).bind fun found _ => ?_
      split
      · exact ih (i + 1) hregion
      · rename_i stop s
        split
        · exact fail _
        · rename_i hlt
          rw [Nat.not_le] at hlt
          refine (change hwatch hregion fun g hg =>
            hg.fold s fun next hnext => ?_).bind fun _ _ =>
              slice (slice (ih _ ?_))
          · exact lt_of_getElem?_of_lt hregion hlt hid hnext
          · rw [List.drop_zero, List.take_length]
            exact hregion.sublist (take_append_drop_sublist hlt)

theorem regionSection (hinner : StructurerPasses watch inner) (fuel : Nat) :
    RegionsPass watch (Partition.regionSection ctx inner fuel) := by
  induction fuel with
  | zero =>
    intro isLoop list after _
    cases list <;> exact fail _
  | succ n ih =>
    intro isLoop list after hlist
    cases list with
    | nil => exact fail _
    | cons first rest =>
      unfold Partition.regionSection
      split
      · exact loop hwatch hinner hlist after
      refine exit fun e => ?_
      split
      · exact jumpEntered hinner hlist after
      refine (foldNested hwatch hinner ih _ _ hlist).bind fun left hleft => ?_
      split
      · exact branch hinner hleft after
      · exact fail _

theorem sectionAt (hinner : StructurerPasses watch inner)
    (hlist : list.Pairwise (· < ·)) (after : Option Nat) (i id : Nat) :
    Passes watch (Partition.sectionAt ctx inner list after i id) := by
  have halone (next : Option Nat) : Passes watch (do
      return (← Partition.single id next, i + 1)) :=
    (single id next).bind fun s _ => pure trivial
  have hregion (isLoop : Bool) (stop : Nat) : Passes watch (do
      let s ← Partition.regionSection ctx inner (stop - i) isLoop
        (← Partition.slice list i stop) (list[stop]?.or after)
      return (s, stop)) :=
    slice ((regionSection hwatch hinner _ _ _ _ (pairwise_slice hlist _ _)).bind
      fun s _ => pure trivial)
  refine block fun b => ?_
  dsimp only
  split
  · exact halone _
  refine (tryPlan? list id).bind fun found _ => ?_
  split
  · exact (tryStatement hinner hlist _ _ _ _).bind fun s _ => pure trivial
  split
  · exact ask rfl fun plan =>
      (switch hinner hlist _ _ _).bind fun s _ => pure trivial
  refine ask rfl fun last => ?_
  split
  · exact hregion _ _
  refine ask rfl fun jumps => ?_
  split
  · refine ask rfl fun stop => ?_
    split
    · exact hregion _ _
    · exact irreducible _
  · exact halone _

theorem sectionsFrom (hinner : StructurerPasses watch inner)
    (hlist : list.Pairwise (· < ·)) (after : Option Nat) (fuel i : Nat) :
    Passes watch (Partition.sectionsFrom ctx inner list after fuel i) := by
  induction fuel generalizing i with
  | zero =>
    refine next hwatch hlist ?_
    split
    · exact pure trivial
    · exact fail _
  | succ n ih =>
    refine next hwatch hlist ?_
    split
    · exact pure trivial
    · exact (sectionAt hwatch hinner hlist after i _).bind fun found _ =>
        (ih found.2).bind fun ss _ => pure trivial

/-- **Taking apart passes.** -/
theorem sections (depth : Nat) :
    StructurerPasses watch (Partition.sections ctx depth) := by
  induction depth with
  | zero => exact fun list after _ => fail _
  | succ d ih =>
    exact fun list after hlist => sectionsFrom hwatch ih hlist after _ _

end Watched

end Unnoticed

/-- **Loops are found throughout.**  Let an observer be shown every list that is
being taken apart and the graph as it is then, before each step and after each
change, and let it object to nothing if the list ascends and the loops that the
blocks of ascending lists head are all found.  It never objects, whether a tidy
graph can be taken apart or not. -/
theorem run_observed_eq_takeApart {m : Method} {g₀ g : Graph} (ctx : Context)
    (htidy : g₀.tidy m = .ok g) {watch : Observer}
    (hwatch : ∀ (list : List Nat) (now : Graph), list.Pairwise (· < ·) →
      (∀ part : List Nat, part.Pairwise (· < ·) → now.FindsLoops part) →
      watch list now = none) :
    (Partition.sections ctx (Work.start ctx g).depth
        (List.range g.blocks.length) none).observed watch
        (Work.start ctx g) = g.takeApart ctx := by
  have hpasses : StructurerPasses watch
      (Partition.sections ctx (Work.start ctx g).depth) :=
    Unnoticed.sections (fun now list hnow hlist =>
      hwatch list now hlist fun part hpart => hnow.findsLoops hpart) _
  exact (hpasses _ none List.pairwise_lt_range).same _
    (Graph.recorded_of_tidy htidy)

/-- In `while (a()) { if (b()) { if (c()) { while (d()) e(); f(); } g();
continue; } h(); }` two regions are folded, and the edge of block 8 back to the
head of the loop is turned to the jump at its end. -/
theorem run_observed_eq_takeApart_nested :
    let test (name : String) : Instr := .call .static ⟨"C", name, "()Z"⟩
    let act (name : String) : Instr := .call .static ⟨"C", name, "()V"⟩
    let m : Method :=
      { instrs := [.label ⟨0⟩, test "a", .ifZero .eq ⟨9⟩, test "b",
          .ifZero .eq ⟨4⟩, test "c", .ifZero .eq ⟨3⟩, .label ⟨1⟩, test "d",
          .ifZero .eq ⟨2⟩, act "e", .goto ⟨1⟩, .label ⟨2⟩,
          act "f", .label ⟨3⟩, act "g", .goto ⟨0⟩, .label ⟨4⟩, act "h",
          .goto ⟨0⟩, .label ⟨9⟩, .ret none], ranges := [] }
    let ctx : Context := ⟨m, LocalTable.empty.lookup, {}⟩
    let watch : Observer := fun list now =>
      @ite _ (now.FindsLoops list) (Classical.propDecidable _)
        none (some .nestingTooDeep)
    let shown (now : Graph) : List (List Nat) :=
      [(now.block 0).preds, (now.block 10).preds, now.successors 2,
        now.successors 3]
    ∃ g₀ g sections w, m.graph = .ok g₀ ∧ g₀.tidy m = .ok g ∧
      g.takeApart ctx = .ok (sections, w) ∧
      shown g = [[8, 10], [9], [7, 3], [6, 4]] ∧
      shown w.graph = [[10], [8, 9], [7], [6]] ∧
      (Partition.sections ctx (Work.start ctx g).depth
        (List.range g.blocks.length) none).observed watch
        (Work.start ctx g) = .ok (sections, w) := by
  intro test act m ctx watch shown
  have hrun : (do
      let g₀ ← m.graph
      let g ← g₀.tidy m
      let parts ← g.takeApart ctx
      return (shown g, shown parts.2.graph)) =
      .ok ([[8, 10], [9], [7, 3], [6, 4]], [[10], [8, 9], [7], [6]]) := by
    decide +kernel
  obtain ⟨g₀, hbuilt, hrun⟩ := bind_eq_ok.1 hrun
  obtain ⟨g, htidy, hrun⟩ := bind_eq_ok.1 hrun
  obtain ⟨⟨sections, w⟩, hparts, hrun⟩ := bind_eq_ok.1 hrun
  obtain ⟨hbefore, hafter⟩ := Prod.mk.inj (Except.ok.inj hrun)
  have hwatch (list : List Nat) (now : Graph) (hlist : list.Pairwise (· < ·))
      (hfinds : ∀ part : List Nat, part.Pairwise (· < ·) →
        now.FindsLoops part) :
      watch list now = none := if_pos (hfinds list hlist)
  have hsame := run_observed_eq_takeApart ctx htidy hwatch
  exact ⟨g₀, g, sections, w, hbuilt, htidy, hparts, hbefore, hafter,
    hsame.trans hparts⟩

end Decompiler
