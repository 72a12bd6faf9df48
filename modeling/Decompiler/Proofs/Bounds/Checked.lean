import Decompiler.Region.Partition

/-!
# Taking a graph apart with checks

A graph is taken apart by functions that are defined everywhere: a slice of a
list is what there is of it, and a block with a number of no block is blank.
Here the same steps are taken with checks.  A step has no result at all where a
position is outside its list, where a slice has its ends in the wrong order,
where a number is that of no block, and where a search runs out of fuel.  Nor
has work that gives up because a block is missing or a recursion is out of fuel.

There are no other faults than without checks: what is found is what is found
without them, or nothing.

* `demand`, `slice`, `exit`, `jumpAt`: the checks.
* `Checked.tryPlan?`, `Checked.switchPlan`, `Checked.extent?`,
  `Checked.headTests?`: layouts and regions.
* `Query.checked`, `Step.checked`, `Partition.checked`: steps.
-/

namespace Decompiler

namespace Checked

/-! ## Checks -/

/-- There is no result unless a condition holds. -/
def demand (c : Prop) [Decidable c] : Option Unit := if c then some () else none

/-- The members of a list from one position up to another. -/
def slice (list : List Nat) (start stop : Nat) : Option (List Nat) := do
  demand (start ≤ stop ∧ stop ≤ list.length)
  return (list.take stop).drop start

/-- Whether some numbers are those of blocks. -/
def known (g : Graph) (ids : List Nat) : Option Unit :=
  demand (∀ id ∈ ids, id < g.blocks.length)

/-- How control leaves a block. -/
def exit (g : Graph) (id : Nat) : Option Exit := g.blocks[id]?.map (·.exit)

/-- Where the block at a position always jumps to. -/
def jumpAt (g : Graph) (list : List Nat) (p : Nat) : Option (Option Nat) := do
  return (← exit g (← list[p]?)).jump?

/-! ## The layout of a try statement -/

/-- The end of the protected run and the block at the join. -/
def bodyAndJoin (g : Graph) (list : List Nat) (stop : Nat) :
    Option (Nat × Option Nat) := do
  demand (0 < stop)
  let forward (t : Option Nat) : Option Nat :=
    t.filter fun t => stop < list.idxOf t
  let last ← jumpAt g list (stop - 1)
  let next ← jumpAt g list stop
  match forward last, forward next with
  | some t, _ => return (stop - 1, some t)
  | none, some t => return (stop, some t)
  | none, none => return (stop, none)

/-- The runs of the handlers, each up to the next one or the join. -/
def handlerSpans (g : Graph) (list : List Nat) (joinBlock : Option Nat)
    (join : Nat) :
    List HandlerSpan → Option (List HandlerSpan)
  | [] => return []
  | h :: hs => do
    let stop := (hs.head?.map (·.start)).getD join
    let last ← if h.start < stop then jumpAt g list (stop - 1) else pure none
    let jumps := h.start < stop && joinBlock.isSome && last == joinBlock
    return { h with stop := if jumps then stop - 1 else stop } ::
      (← handlerSpans g list joinBlock join hs)

/-- The layout of a group's try statement, if there is one. -/
def tryPlan? (g : Graph) (list : List Nat) (t : TryGroup) :
    Option (Option TryPlan) := do
  let stop := list.idxOf t.stop
  let handlers : List HandlerSpan := t.handlers.map fun (block, type) =>
    ⟨type, block, list.idxOf block, list.length⟩
  if handlers.any fun h => h.start < stop || list.length ≤ h.start then
    return none
  else
    let ordered := Order.sortOn (·.start) handlers
    let (bodyStop, joinBlock) ← bodyAndJoin g list stop
    let join := (joinBlock.map (list.idxOf ·)).getD list.length
    match ordered.head?, ordered.getLast? with
    | some first, some last =>
      if join ≤ last.start ∨ first.start < bodyStop then return none
      else
        return some ⟨bodyStop, ← handlerSpans g list joinBlock join ordered,
          join⟩
    | _, _ => return none

/-! ## The layout of a switch -/

/-- Where the arms' last blocks jump to, if that is not before `last`. -/
def joins (g : Graph) (list : List Nat) (last : Nat) : List ArmStart →
      Option (List Nat)
  | a :: b :: as => do
    let rest ← joins g list last (b :: as)
    if a.position < b.position ∧ a.position < list.length then
      let jump ← jumpAt g list (b.position - 1)
      return ((jump.map (list.idxOf ·)).filter (last ≤ ·)).toList ++ rest
    else return rest
  | _ => return []

/-- The join of a switch. -/
def joinPosition (g : Graph) (list : List Nat) (starts : List ArmStart) :
    Option Nat := do
  let last := (starts.getLast?.map (·.position)).getD 0
  match (← joins g list last starts).max?, starts.getLast? with
  | some j, _ => return j
  | none, some ⟨p, [], true⟩ => return p
  | none, _ => return list.length

/-- The runs of the cases. -/
def caseSpans (g : Graph) (list : List Nat) (join : Nat) :
    List ArmStart → Option (List CaseSpan)
  | [] => return []
  | a :: as => do
    let rest ← caseSpans g list join as
    if join ≤ a.position then
      if a.isDefault && a.keys.isEmpty then return rest
      else return ⟨a.keys, a.isDefault, join, join, true⟩ :: rest
    else
      let stop := ((as.head?.map (·.position)).map (min join)).getD join
      let last ← if a.position < stop then
        jumpAt g list (stop - 1) else pure none
      let breaks := a.position < stop && last.map (list.idxOf ·) == some join
      return ⟨a.keys, a.isDefault, a.position, if breaks then stop - 1
        else stop, breaks⟩ :: rest

/-- The layout of the switch at position `i`. -/
def switchPlan (g : Graph) (list : List Nat) (i : Nat) : Option SwitchPlan := do
  match ← exit g (← list[i]?) with
  | .selects arms default =>
    let starts := SwitchPlan.armStarts list arms default
    let join ← joinPosition g list starts
    return ⟨← caseSpans g list join starts, join⟩
  | _ => return ⟨[], i + 1⟩

/-! ## Regions -/

/-- The last position with an edge back to the block at `i`. -/
def lastBackEdge? (g : Graph) (list : List Nat) (i : Nat) :
    Option (Option Nat) := do
  demand (i < list.length)
  known g list
  return g.lastBackEdge? list i

/-- Whether the block at `i` jumps to a branch further along the list. -/
def jumpsIntoTest (g : Graph) (list : List Nat) (i : Nat) : Option Bool := do
  demand (i < list.length)
  known g list
  return g.jumpsIntoTest list i

/-- Stretches a run until it is closed. -/
def grow (g : Graph) (list : List Nat) (start : Nat) : (fuel : Nat) →
      (stop : Nat) → Option Nat
  | fuel, stop =>
    match ((list.take stop).drop (start + 1)).findSome? (g.beyond? list stop),
      fuel with
    | none, _ => return stop
    | some _, 0 => none
    | some far, n + 1 => grow g list start n far

/-- The end of the region headed by the block at `start`, if it has one. -/
def extent? (g : Graph) (list : List Nat) (start : Nat) : Option (Option Nat) :=
  do
  let head ← list[start]?
  known g list
  match (g.exit head).target? with
  | none => return none
  | some target =>
    if target ≤ head then return none
    else
      let other := ((g.exit head).otherwise?.map (list.idxOf ·)).getD 0
      let stop ← grow g list start list.length (max (list.idxOf target) other)
      let extended := if (g.exit head).isJump then
        stop + g.bottomTests list start stop else stop
      if (list.take start).any (g.enters list start stop) then return none
      else if (list.drop extended).any (g.enters list start stop) then
        return none
      else return some extended

/-! ## Tests -/

/-- The largest positive number up to a bound with a property. -/
def largestUpTo (p : Nat → Option Bool) : Nat → Option (Option Nat)
  | 0 => return none
  | n + 1 => do if ← p (n + 1) then return some (n + 1) else largestUpTo p n

/-- The number of blocks at the front of a loop that make up its test. -/
def headTests? (g : Graph) (region : List Nat) : Option (Option Nat) := do
  known g region
  let tests := region.dropLast.takeWhile fun id => (g.exit id).isBranch
  let closed (k : Nat) : Option Bool := do
    let chain ← slice region 0 k
    let body ← region[k]?
    return chain.all (g.staysInTest region chain body)
  largestUpTo closed tests.length

/-- Where the tests at the bottom of a loop start. -/
def tailTestStart (g : Graph) (first : Nat) (region : List Nat) : (n : Nat) →
      Option Nat
  | 0 => return 0
  | n + 1 => do
    let id ← region[n]?
    let leaves ← exit g id
    let tests ← slice region n region.length
    if leaves.isBranch && g.staysInTest region tests first id then
      tailTestStart g first region n
    else return n + 1

/-- The tests at the front of a region. -/
def testRun? (g : Graph) (region : List Nat) (after : Option Nat) (n : Nat) :
    Option (Option TestRun) := do
  demand (n < region.length)
  known g region
  return g.testRun? region after n

end Checked

/-! ## Steps -/

/-- Whether a fault is one of taking a graph apart, and not of the method. -/
def Fault.isInternal : Fault → Bool
  | .missingBlock _ | .nestingTooDeep => true
  | _ => false

/-- What a question is answered with, if it leads to nothing out of range. -/
def Query.checked (w : Work) : (q : Query) → Option q.Answer
  | graph ids => do
    Checked.known w.graph ids
    return w.graph
  | pending => some w.pending
  | next list i => some list[i]?
  | member list i => list[i]?
  | slice list start stop => Checked.slice list start stop
  | tryPlan list t => Checked.tryPlan? w.graph list t
  | switchPlan list i => Checked.switchPlan w.graph list i
  | backEdge list i => Checked.lastBackEdge? w.graph list i
  | intoTest list i => Checked.jumpsIntoTest w.graph list i
  | extent list i => Checked.extent? w.graph list i
  | headTests region => Checked.headTests? w.graph region
  | tailTests first region =>
    Checked.tailTestStart w.graph first region region.length
  | testRun region after n => Checked.testRun? w.graph region after n

/-- What a step does, if the blocks that it deals with are there. -/
def Step.checked (w : Work) :
    (s : Step) → ExceptT Fault Option (s.Answer × Work)
  | ask q => do return (← q.checked w, w)
  | guard ctx chain body after => do
    Checked.known w.graph chain
    ExceptT.mk (some ((guard ctx chain body after).run w))
  | change list f => do
    Checked.known w.graph list
    ExceptT.mk (some ((change list f).run w))
  | use t => ExceptT.mk (some ((use t).run w))
  | single id next => do
    Checked.known w.graph [id]
    ExceptT.mk (some ((single id next).run w))

/-- What comes of the work, step by step, if all checks hold. -/
def Partition.checked {α : Type} :
    Partition α → Work → ExceptT Fault Option (α × Work)
  | done a, w => return (a, w)
  | fail fault, _ => do
    Checked.demand (fault.isInternal = false)
    throw fault
  | step s next, w => do
    let r ← s.checked w
    (next r.1).checked r.2

/-- With checks one way to take a graph apart after the other. -/
theorem Partition.checked_bind {α β : Type} (x : Partition α)
    (f : α → Partition β) (w : Work) :
    (x >>= f).checked w = x.checked w >>= fun r => (f r.1).checked r.2 := by
  induction x generalizing w with
  | done a => rfl
  | fail fault =>
    change (fail fault).checked w = _
    rw [checked, checked, bind_assoc]
    rfl
  | step s next ih =>
    change (s.checked w >>= fun r => ((next r.1) >>= f).checked r.2) = _
    rw [checked, bind_assoc]
    exact bind_congr fun r => ih r.1 r.2

end Decompiler
