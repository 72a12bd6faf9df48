import Decompiler.Bytecode.Method
import Decompiler.Graph.Block
import Decompiler.Order.Stable

/-!
# The layout of a try statement

Exception ranges over the same blocks form a group.  The blocks of the range
are followed by the handlers, in the order in which they start, up to the join
where all ways out meet.  The join is where the jump at the end of the range,
or right after it, leads.
-/

namespace Decompiler

/-- Exception ranges over the blocks from `start` up to and without `stop`,
with their handler blocks and the types they catch, in table order. -/
structure TryGroup where
  start : Nat
  stop : Nat
  handlers : List (Nat × Option String)
deriving Repr, DecidableEq

namespace TryGroup

/-- Adds a handler to the group of its range, or a new group at the end. -/
def add (start stop : Nat) (handler : Nat × Option String) : List TryGroup →
      List TryGroup
  | [] => [⟨start, stop, [handler]⟩]
  | t :: ts =>
    if t.start = start ∧ t.stop = stop then
      { t with handlers := t.handlers ++ [handler] } :: ts
    else t :: add start stop handler ts

/-- The groups of some ranges.  A range counts if its three labels start
blocks and it is not empty. -/
def collect (g : Graph) : List TryGroup → List ExceptionRange → List TryGroup
  | ts, [] => ts
  | ts, r :: rs =>
    match g.blockAt? r.start, g.blockAt? r.stop, g.blockAt? r.handler with
    | some start, some stop, some handler =>
      collect g (if start < stop then add start stop (handler, r.type) ts
        else ts) rs
    | _, _, _ => collect g ts rs

/-- The groups of a method's exception ranges, by their first block and, among
those with the same first block, from the shortest to the longest. -/
def ofMethod (g : Graph) (m : Method) : List TryGroup :=
  Order.sortOnPair (fun t => (t.start, t.stop)) (collect g [] m.ranges)

/-- The longest group that starts with a block and ends inside a list. -/
def longest? (list : List Nat) (id : Nat) (ts : List TryGroup) :
    Option TryGroup :=
  (ts.filter fun t => t.start = id && list.idxOf t.stop < list.length).getLast?

end TryGroup

/-- The run of a handler, its last jump to the join left out. -/
structure HandlerSpan where
  type : Option String
  block : Nat
  start : Nat
  stop : Nat
deriving Repr, DecidableEq

/-- The end of the protected run, the runs of the handlers, and the position
of the block after the statement or the length of the list. -/
structure TryPlan where
  bodyStop : Nat
  handlers : List HandlerSpan
  join : Nat
deriving Repr, DecidableEq

namespace TryPlan

/-- Where the block at a position always jumps to. -/
def jumpTarget? (g : Graph) (list : List Nat) (p : Nat) : Option Nat :=
  (list[p]?.map g.exit) >>= Exit.jump?

/-- The end of the protected run and the block at the join.  The jump to the
join is the last block of the range, which is then left out, or the block
after it. -/
def bodyAndJoin (g : Graph) (list : List Nat) (stop : Nat) : Nat × Option Nat :=
  let forward (p : Nat) : Option Nat :=
    (jumpTarget? g list p).filter fun t => stop < list.idxOf t
  match forward (stop - 1), forward stop with
  | some t, _ => (stop - 1, some t)
  | none, some t => (stop, some t)
  | none, none => (stop, none)

/-- The runs of the handlers, each up to the next one or the join. -/
def spans (g : Graph) (list : List Nat) (joinBlock : Option Nat) (join : Nat) :
    List HandlerSpan → List HandlerSpan
  | [] => []
  | h :: hs =>
    let stop := (hs.head?.map (·.start)).getD join
    let jumps := h.start < stop && joinBlock.isSome
      && jumpTarget? g list (stop - 1) == joinBlock
    { h with stop := if jumps then stop - 1 else stop } ::
    spans g list joinBlock join hs

end TryPlan

/-- The layout of a group's try statement, if its handlers follow its range
and end at one join. -/
def Graph.tryPlan? (g : Graph) (list : List Nat) (t : TryGroup) :
    Option TryPlan :=
  let stop := list.idxOf t.stop
  let handlers : List HandlerSpan := t.handlers.map fun (block, type) =>
    ⟨type, block, list.idxOf block, list.length⟩
  if handlers.any fun h => h.start < stop || list.length ≤ h.start then none
  else
    let ordered := Order.sortOn (·.start) handlers
    let (bodyStop, joinBlock) := TryPlan.bodyAndJoin g list stop
    let join := (joinBlock.map (list.idxOf ·)).getD list.length
    match ordered.head?, ordered.getLast? with
    | some first, some last =>
      if join ≤ last.start ∨ first.start < bodyStop then none
      else some ⟨bodyStop, TryPlan.spans g list joinBlock join ordered, join⟩
    | _, _ => none

end Decompiler
