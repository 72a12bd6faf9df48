import Decompiler.Chain.Guard
import Decompiler.Region.Extent
import Decompiler.Region.SwitchPlan
import Decompiler.Region.Tests
import Decompiler.Region.Work

/-!
# Steps of taking a graph apart

A graph is taken apart step by step.  A step asks for something or changes the
work, and what comes next depends on the answer.  So a way to take a graph apart
is a tree: it has come to its end, it has failed, or it takes a step and has a
branch for each answer.

Every look at a list or at the graph that could miss is a step of its own.
`Step.run` says what a step does to the work.  The same tree may be read in
other ways, which keep an eye on its steps.

* `Query`, `Step`: what there is to ask and to do.
* `Partition`: trees of steps, with `Partition.run`.
-/

namespace Decompiler

/-- What is asked about lists of blocks and the graph they are from. -/
inductive Query
  /-- The graph, of which some blocks are going to be read. -/
  | graph (ids : List Nat)
  /-- The groups of exception ranges that are left. -/
  | pending
  /-- The block that comes next in a list, if the list has not come to its
  end. -/
  | next (list : List Nat) (i : Nat)
  /-- The block at a position of a list. -/
  | member (list : List Nat) (i : Nat)
  /-- The members of a list from one position up to another. -/
  | slice (list : List Nat) (start stop : Nat)
  /-- The layout of a group's try statement. -/
  | tryPlan (list : List Nat) (t : TryGroup)
  /-- The layout of the switch at a position. -/
  | switchPlan (list : List Nat) (i : Nat)
  /-- The last edge back to the block at a position. -/
  | backEdge (list : List Nat) (i : Nat)
  /-- Whether the block at a position jumps to a branch further along. -/
  | intoTest (list : List Nat) (i : Nat)
  /-- The end of the region that starts at a position. -/
  | extent (list : List Nat) (i : Nat)
  /-- The number of tests at the top of a loop. -/
  | headTests (region : List Nat)
  /-- Where the tests at the bottom of a loop start. -/
  | tailTests (first : Nat) (region : List Nat)
  /-- The tests that a branch starts with, at most `n + 1` of them. -/
  | testRun (region : List Nat) (after : Option Nat) (n : Nat)

namespace Query

/-- What a question is answered with. -/
def Answer : Query → Type
  | graph _ => Graph
  | pending => List TryGroup
  | next .. => Option Nat
  | member .. => Nat
  | slice .. => List Nat
  | tryPlan .. => Option TryPlan
  | switchPlan .. => SwitchPlan
  | backEdge .. => Option Nat
  | intoTest .. => Bool
  | extent .. => Option Nat
  | headTests _ => Option Nat
  | tailTests .. => Nat
  | testRun .. => Option TestRun

/-- The answer as the work is. -/
def answer (w : Work) : (q : Query) → q.Answer
  | graph _ => w.graph
  | pending => w.pending
  | next list i => list[i]?
  | member list i => list.getD i 0
  | slice list start stop => (list.take stop).drop start
  | tryPlan list t => w.graph.tryPlan? list t
  | switchPlan list i => w.graph.switchPlan list i
  | backEdge list i => w.graph.lastBackEdge? list i
  | intoTest list i => w.graph.jumpsIntoTest list i
  | extent list i => w.graph.extent? list i
  | headTests region => w.graph.headTests? region
  | tailTests first region => w.graph.tailTestStart first region region.length
  | testRun region after n => w.graph.testRun? region after n

end Query

/-- One step of taking a graph apart. -/
inductive Step
  | ask (q : Query)
  /-- The guard of a body, from the chain of tests in front of it. -/
  | guard (ctx : Context) (chain : List Nat) (body : Nat) (after : Option Nat)
  /-- Changes blocks of a list. -/
  | change (list : List Nat) (f : Graph → Graph)
  /-- Uses up a group of exception ranges. -/
  | use (t : TryGroup)
  /-- Makes a block a section of its own, from which control goes on at `next`.
  If a region has been folded into the block, that is the section. -/
  | single (id : Nat) (next : Option Nat)

namespace Step

/-- What a step comes back with. -/
def Answer : Step → Type
  | ask q => q.Answer
  | guard .. => Condition
  | change .. => Unit
  | use _ => Unit
  | single .. => Section

/-- What a step does. -/
def run (w : Work) : (s : Step) → Except Fault (s.Answer × Work)
  | ask q => .ok (q.answer w, w)
  | guard ctx chain body after =>
    (w.graph.guard ctx chain body after).map fun c => (c, w)
  | change _ f => .ok ((), { w with graph := f w.graph })
  | use t => .ok ((), { w with pending := w.pending.erase t })
  | single id _ =>
    match (w.graph.block id).folded with
    | some s => .ok (s, { w with graph := w.graph.unfold id })
    | none => .ok (.inline id, w)

end Step

/-- Ways to take a graph apart, with a result in the end. -/
inductive Partition (α : Type) : Type
  | done (a : α)
  | fail (fault : Fault)
  | step (s : Step) (next : s.Answer → Partition α)

namespace Partition

variable {α β : Type}

/-- Goes on with the result. -/
def bind : Partition α → (α → Partition β) → Partition β
  | done a, f => f a
  | fail fault, _ => fail fault
  | step s next, f => step s fun a => (next a).bind f

instance : Monad Partition where
  pure := done
  bind := bind

/-- What comes of the work, step by step. -/
def run : Partition α → Work → Except Fault (α × Work)
  | done a, w => .ok (a, w)
  | fail fault, _ => .error fault
  | step s next, w => s.run w >>= fun r => (next r.1).run r.2

/-! ### Single steps -/

/-- Asks a question. -/
def ask (q : Query) : Partition q.Answer := step (.ask q) done

/-- The graph as it is now, of which some blocks are going to be read. -/
def graph (ids : List Nat) : Partition Graph := ask (.graph ids)

/-- How control leaves a block. -/
def exit (id : Nat) : Partition Exit := return (← graph [id]).exit id

/-- The block of a number. -/
def block (id : Nat) : Partition Block := do
  match (← graph []).blocks[id]? with
  | some b => return b
  | none => fail (.missingBlock id)

/-- Gives up on the region of a block. -/
def irreducible (id : Nat) : Partition α := do
  fail (.irreducible ((← graph [id]).block id).breakPoint)

/-- The groups of exception ranges that are left. -/
def pending : Partition (List TryGroup) := ask .pending

/-- The block that comes next in a list. -/
def next? (list : List Nat) (i : Nat) : Partition (Option Nat) :=
  ask (.next list i)

/-- The block at a position of a list. -/
def member (list : List Nat) (i : Nat) : Partition Nat := ask (.member list i)

/-- The members of a list from one position up to another. -/
def slice (list : List Nat) (start stop : Nat) : Partition (List Nat) :=
  ask (.slice list start stop)

/-- The guard of a body. -/
def guard (ctx : Context) (chain : List Nat) (body : Nat) (after : Option Nat) :
    Partition Condition := step (.guard ctx chain body after) done

/-- Changes blocks of a list. -/
def change (list : List Nat) (f : Graph → Graph) : Partition Unit :=
  step (.change list f) done

/-- Uses up a group of exception ranges. -/
def use (t : TryGroup) : Partition Unit := step (.use t) done

/-- Makes a block a section of its own. -/
def single (id : Nat) (next : Option Nat) : Partition Section :=
  step (.single id next) done

/-- The layout of a group's try statement. -/
def layout? (list : List Nat) (t : TryGroup) : Partition (Option TryPlan) :=
  ask (.tryPlan list t)

/-- The layout of a switch. -/
def switchPlan (list : List Nat) (i : Nat) : Partition SwitchPlan :=
  ask (.switchPlan list i)

/-- The last edge back to the block at a position. -/
def lastBackEdge? (list : List Nat) (i : Nat) : Partition (Option Nat) :=
  ask (.backEdge list i)

/-- Whether the block at a position jumps to a branch further along. -/
def jumpsIntoTest (list : List Nat) (i : Nat) : Partition Bool :=
  ask (.intoTest list i)

/-- The end of the region that starts at a position. -/
def extent? (list : List Nat) (i : Nat) : Partition (Option Nat) :=
  ask (.extent list i)

/-- The number of tests at the top of a loop. -/
def headTests? (region : List Nat) : Partition (Option Nat) :=
  ask (.headTests region)

/-- Where the tests at the bottom of a loop start. -/
def tailTestStart (first : Nat) (region : List Nat) : Partition Nat :=
  ask (.tailTests first region)

/-- The tests that a branch starts with. -/
def testRun? (region : List Nat) (after : Option Nat) (n : Nat) :
    Partition (Option TestRun) := ask (.testRun region after n)

/-- The try statement that starts with a block, if there is one.  A group that
cannot be laid out as a statement is used up. -/
def tryPlan? (list : List Nat) (id : Nat) :
    Partition (Option (TryGroup × TryPlan)) := do
  match TryGroup.longest? list id (← pending) with
  | none => return none
  | some t =>
    match ← layout? list t with
    | some plan => return some (t, plan)
    | none => do
      use t
      return none

/-! ### Running -/

/-- One way to take a graph apart after the other. -/
theorem run_bind (x : Partition α) (f : α → Partition β) (w : Work) :
    (x >>= f).run w = x.run w >>= fun r => (f r.1).run r.2 := by
  induction x generalizing w with
  | done a => rfl
  | fail fault => rfl
  | step s next ih =>
    change (s.run w >>= fun r => ((next r.1) >>= f).run r.2) = _
    rw [run]
    cases s.run w with
    | error fault => rfl
    | ok r => exact ih r.1 r.2

end Partition

end Decompiler
