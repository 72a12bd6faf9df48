import Decompiler.Graph.Block

/-!
# The extent of a region

A region is a run of a list of blocks that control enters only at its head.
Blocks are taken by their position in the list; a block outside the list is at
the position after its end.

The region of a branch is the least run that holds both ways of the branch and
is closed: no block strictly inside it has an edge to a position beyond its
end.  It is found by growing the run until it is closed.  When an edge from
elsewhere leads into its inside there is no region.
-/

namespace Decompiler.Graph

/-- Where the edges out of a block lead. -/
def landings (g : Graph) (list : List Nat) (id : Nat) : List Nat :=
  (g.successors id).map (list.idxOf ·)

/-- Whether a block has an edge to a position strictly between two others. -/
def enters (g : Graph) (list : List Nat) (start stop id : Nat) : Bool :=
  (g.landings list id).any fun p => start < p && p < stop

/-- The furthest position that an edge out of a block leads to, if that is
beyond `stop`. -/
def beyond? (g : Graph) (list : List Nat) (stop id : Nat) : Option Nat :=
  (g.landings list id).max?.filter (stop < ·)

/-- Stretches a run to the furthest edge of its first block with an edge
beyond its end, until there is none.  Each step takes the end further along
the list, so the length of the list is fuel enough. -/
def grow (g : Graph) (list : List Nat) (start : Nat) : (fuel : Nat) →
      (stop : Nat) → Nat
  | 0, stop => stop
  | n + 1, stop =>
    match ((list.take stop).drop (start + 1)).findSome? (g.beyond? list stop)
      with
    | some far => g.grow list start n far
    | none => stop

theorem lt_of_beyond? {g : Graph} {list : List Nat} {stop id far : Nat}
    (h : g.beyond? list stop id = some far) : stop < far := by
  simpa using (Option.filter_eq_some_iff.1 h).2

/-- How many of the blocks from `stop` on are tests at the bottom of a loop
whose body is the run before: branches up to the last that leads back inside. -/
def bottomTests (g : Graph) (list : List Nat) (start stop : Nat) : Nat :=
  let tests := (list.drop stop).takeWhile fun id => (g.exit id).isBranch
  (tests.reverse.dropWhile fun id => !g.enters list start stop id).length

/-- The end of the region headed by the block at `start`, if it has one.  The
head is a branch or jump forward; the region of a jump includes the tests at
its bottom. -/
def extent? (g : Graph) (list : List Nat) (start : Nat) : Option Nat := do
  let head ← list[start]?
  let target ← (g.exit head).target?
  if target ≤ head then none
  else
    let other := ((g.exit head).otherwise?.map (list.idxOf ·)).getD 0
    let stop := g.grow list start list.length (max (list.idxOf target) other)
    let extended := if (g.exit head).isJump then
      stop + g.bottomTests list start stop else stop
    if (list.take start).any (g.enters list start stop) then none
    else if (list.drop extended).any (g.enters list start stop) then none
    else some extended

/-- The last position after `i` with an edge back to the block at `i`, if that
block heads a loop.  A jump heads none. -/
def lastBackEdge? (g : Graph) (list : List Nat) (i : Nat) : Option Nat := do
  let head ← list[i]?
  let b := g.block head
  if b.exit.isJump || b.preds.all (· ≤ head) then none
  else
    (List.range list.length).reverse.find? fun j =>
      i < j && (list[j]?.map g.successors).any (·.contains head)

/-- Whether the block at `i` jumps to a branch further along the list: the way
into a loop that is tested at its bottom. -/
def jumpsIntoTest (g : Graph) (list : List Nat) (i : Nat) : Bool :=
  match (list[i]?.map g.exit) >>= Exit.jump? with
  | some target =>
    let p := list.idxOf target
    i < p && p < list.length && (g.exit target).isBranch
  | none => false

end Decompiler.Graph
