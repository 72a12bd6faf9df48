import Decompiler.Graph.Block

/-!
# The tests of loops and branches

A loop has its test at its top or at its bottom, and a branch starts with one.
Each is a run of blocks that end in branches.  It is tried from the longest run
to the shortest until no edge out of it leads anywhere but to the body, past it,
or to another of its blocks.
-/

namespace Decompiler

/-- The tests at the front of a run: how many they are, the block their body
starts with, and where they lead past it. -/
structure TestRun where
  size : Nat
  body : Nat
  exit : Option Nat
deriving Repr, DecidableEq

/-- The largest positive number up to a bound with a property. -/
def largestUpTo (p : Nat → Bool) : Nat → Option Nat
  | 0 => none
  | n + 1 => if p (n + 1) then some (n + 1) else largestUpTo p n

namespace Graph

/-! ## Loops -/

/-- Whether a block belongs to the test of a loop: each of its edges stays in
the chain of tests, goes to the body, or leaves the region. -/
def staysInTest (g : Graph) (region chain : List Nat) (body id : Nat) : Bool :=
  (g.successors id).all fun t => t == body || chain.contains t ||
    !region.contains t

/-- The number of blocks at the front of a loop that make up its test. -/
def headTests? (g : Graph) (region : List Nat) : Option Nat :=
  let tests := region.dropLast.takeWhile fun id => (g.exit id).isBranch
  let closed (k : Nat) : Bool :=
    (region.take k).all (g.staysInTest region (region.take k) (region.getD k 0))
  largestUpTo closed tests.length

/-- Where the tests at the bottom of a loop start, looking at its first `n`
blocks from the last to the first. -/
def tailTestStart (g : Graph) (first : Nat) (region : List Nat) :
    (n : Nat) → Nat
  | 0 => 0
  | n + 1 =>
    let id := region.getD n 0
    if (g.exit id).isBranch && g.staysInTest region (region.drop n)
      first id then
      g.tailTestStart first region n
    else n + 1

/-! ## Branches -/

/-- The run of the first `size` tests, when `after` follows the whole. -/
def testRunOf (g : Graph) (region : List Nat) (after : Option Nat)
    (size body : Nat) : TestRun :=
  let chain := region.take size
  let leaves (t : Nat) : Bool := t != body && !chain.contains t
  let exit := (chain.filterMap fun id => (g.exit id).target?).find? leaves
  ⟨size, body, exit.or after⟩

/-- Whether no test of a run branches anywhere else. -/
def isClosed (g : Graph) (region : List Nat) (run : TestRun) : Bool :=
  let chain := region.take run.size
  chain.all fun id => (g.successors id).all fun t =>
    t == run.body || some t == run.exit || chain.contains t

/-- The longest closed run of at most `n + 1` tests.  A test that branches
anywhere else opens the body; one test is a run in any case. -/
def testRun? (g : Graph) (region : List Nat) (after : Option Nat) : (n : Nat) →
      Option TestRun
  | 0 => (region[1]?.or after).map (g.testRunOf region after 1)
  | n + 1 => do
    let body ← region[n + 2]?.or after
    let run := g.testRunOf region after (n + 2) body
    if g.isClosed region run then some run else g.testRun? region after n

/-- Where the alternative to a run's body starts: where the run leads past
it, or at the end of the region if that is what follows the region. -/
def alternativeStart? (region : List Nat) (after : Option Nat) (run : TestRun) :
    Option Nat :=
  if run.exit = after then some region.length
  else
    match run.exit with
    | none => none
    | some e =>
      let p := region.idxOf e
      if run.size ≤ p ∧ p < region.length then some p else none

end Graph

end Decompiler
