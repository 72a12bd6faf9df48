import Decompiler.Region.Partition

/-!
# What is read off the edges of a graph

The extent of a region, the tests of a loop or a branch, and the layout of a
switch or a try statement are read off the edges of a graph and, for a loop, the
predecessors of its head.  Which instructions the blocks hold does not matter,
so all of this is the same for two graphs with the same edges.
-/

namespace Decompiler.Graph

variable {g g' : Graph}

/-- Blocks with the same exits have the same successors. -/
theorem successors_of_exit (h : g'.exit = g.exit) :
    g'.successors = g.successors := by
  funext id
  rw [successors, successors, h]

section Extent

variable (h : g'.exit = g.exit) (list : List Nat)
include h

/-- Where the edges of a list land depends on exits only. -/
theorem landings_of_exit : g'.landings list = g.landings list := by
  funext id
  rw [landings, landings, successors_of_exit h]

/-- What enters a run depends on exits only. -/
theorem enters_of_exit (start stop : Nat) :
    g'.enters list start stop = g.enters list start stop := by
  funext id
  rw [enters, enters, landings_of_exit h]

theorem beyond?_of_exit (stop : Nat) :
    g'.beyond? list stop = g.beyond? list stop := by
  funext id
  rw [beyond?, beyond?, landings_of_exit h]

/-- How far a run grows depends on exits only. -/
theorem grow_of_exit (start fuel stop : Nat) :
    g'.grow list start fuel stop = g.grow list start fuel stop := by
  induction fuel generalizing stop with
  | zero => rfl
  | succ n ih => simp only [grow, beyond?_of_exit h, ih]

theorem bottomTests_of_exit (start stop : Nat) :
    g'.bottomTests list start stop = g.bottomTests list start stop := by
  simp only [bottomTests, h, enters_of_exit h]

/-- The end of a region depends on exits only. -/
theorem extent?_of_exit : g'.extent? list = g.extent? list := by
  funext start
  simp only [extent?, h, grow_of_exit h, bottomTests_of_exit h,
    enters_of_exit h]

/-- Whether a jump enters a test depends on exits only. -/
theorem jumpsIntoTest_of_exit :
    g'.jumpsIntoTest list = g.jumpsIntoTest list := by
  funext i
  simp only [jumpsIntoTest, h]

/-- The last edge back depends on exits and predecessors only. -/
theorem lastBackEdge?_of_exit
    (hpreds : ∀ id, (g'.block id).preds = (g.block id).preds) :
    g'.lastBackEdge? list = g.lastBackEdge? list := by
  have hexit (id : Nat) : (g'.block id).exit = (g.block id).exit :=
    congrFun h id
  funext i
  simp only [lastBackEdge?, hexit, hpreds, successors_of_exit h]

end Extent

section Tests

variable (h : g'.exit = g.exit) (region : List Nat)
include h

theorem staysInTest_of_exit (chain : List Nat) (body : Nat) :
    g'.staysInTest region chain body = g.staysInTest region chain body := by
  funext id
  rw [staysInTest, staysInTest, successors_of_exit h]

/-- The tests at the top of a loop depend on exits only. -/
theorem headTests?_of_exit : g'.headTests? region = g.headTests? region := by
  simp only [headTests?, h, staysInTest_of_exit h]

/-- The tests at the bottom of a loop depend on exits only. -/
theorem tailTestStart_of_exit (first n : Nat) :
    g'.tailTestStart first region n = g.tailTestStart first region n := by
  induction n with
  | zero => rfl
  | succ n ih => simp only [tailTestStart, h, staysInTest_of_exit h, ih]

theorem isClosed_of_exit (run : TestRun) :
    g'.isClosed region run = g.isClosed region run := by
  rw [isClosed, isClosed, successors_of_exit h]

/-- The tests of a branch depend on exits only. -/
theorem testRun?_of_exit (after : Option Nat) (n : Nat) :
    g'.testRun? region after n = g.testRun? region after n := by
  have hrun (size body : Nat) :
      g'.testRunOf region after size body = g.testRunOf region after size
        body := by
    simp only [testRunOf, h]
  induction n with
  | zero => simp only [testRun?, funext (hrun 1)]
  | succ n ih => simp only [testRun?, hrun, isClosed_of_exit h, ih]

end Tests

section Layouts

variable (h : g'.exit = g.exit) (list : List Nat)
include h

theorem jumpPosition?_of_exit :
    SwitchPlan.jumpPosition? g' list = SwitchPlan.jumpPosition? g list := by
  funext p
  rw [SwitchPlan.jumpPosition?, SwitchPlan.jumpPosition?, h]

theorem joins_of_exit (last : Nat) (starts : List ArmStart) :
    SwitchPlan.joins g' list last starts = SwitchPlan.joins g list last
      starts := by
  induction starts with
  | nil => rfl
  | cons a as ih =>
    cases as with
    | nil => rfl
    | cons b as => simp only [SwitchPlan.joins, jumpPosition?_of_exit h, ih]

theorem switchSpans_of_exit (join : Nat) (starts : List ArmStart) :
    SwitchPlan.spans g' list join starts = SwitchPlan.spans g list join
      starts := by
  induction starts with
  | nil => rfl
  | cons a as ih => simp only [SwitchPlan.spans, jumpPosition?_of_exit h, ih]

/-- The layout of a switch depends on exits only. -/
theorem switchPlan_of_exit : g'.switchPlan list = g.switchPlan list := by
  funext i
  simp only [switchPlan, SwitchPlan.joinPosition, h, joins_of_exit h,
    switchSpans_of_exit h]

theorem jumpTarget?_of_exit :
    TryPlan.jumpTarget? g' list = TryPlan.jumpTarget? g list := by
  funext p
  rw [TryPlan.jumpTarget?, TryPlan.jumpTarget?, h]

theorem bodyAndJoin_of_exit (stop : Nat) :
    TryPlan.bodyAndJoin g' list stop = TryPlan.bodyAndJoin g list stop := by
  rw [TryPlan.bodyAndJoin, TryPlan.bodyAndJoin, jumpTarget?_of_exit h]

theorem trySpans_of_exit (joinBlock : Option Nat) (join : Nat)
    (handlers : List HandlerSpan) :
    TryPlan.spans g' list joinBlock join handlers =
      TryPlan.spans g list joinBlock join handlers := by
  induction handlers with
  | nil => rfl
  | cons head hs ih => simp only [TryPlan.spans, jumpTarget?_of_exit h, ih]

/-- The layout of a try statement depends on exits only. -/
theorem tryPlan?_of_exit : g'.tryPlan? list = g.tryPlan? list := by
  funext t
  simp only [tryPlan?, bodyAndJoin_of_exit h, trySpans_of_exit h]

end Layouts

end Decompiler.Graph
