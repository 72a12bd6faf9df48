import Decompiler.Region.Branch

/-!
# Partitioning a graph into sections

The blocks of a method, in the order of their instructions, are taken apart
into a sequence of sections.  At each block the first of these applies:

1. a block that a region has been folded into is that region's section;
2. exception ranges that start here make a try statement;
3. a switch makes a switch statement;
4. a block with an edge back to it from later on heads a loop;
5. a branch, or a jump into the test of a loop, heads a region;
6. any other block is straight-line code.

The runs of blocks inside a section are taken apart in the same way.  Before a
branch region is, the regions inside it are folded, so that it reads as a run
of tests and bodies.
-/

namespace Decompiler.Partition

/-- Structures the runs of a list one after the other. -/
def cases (inner : Structurer) (list : List Nat) (after : Option Nat) :
    List CaseSpan → Partition (List (Case Section))
  | [] => return []
  | c :: cs => do
    let body ←
      if c.start < c.stop then
        do inner (← slice list c.start c.stop) after else pure []
    return ⟨c.keys, c.isDefault, c.breaks, body⟩ ::
      (← cases inner list after cs)

/-- Structures the handlers of a list one after the other. -/
def handlers (inner : Structurer) (list : List Nat) (after : Option Nat) :
    List HandlerSpan → Partition (List (Handler Section))
  | [] => return []
  | h :: hs => do
    let body ← inner (← slice list h.start h.stop) after
    return ⟨h.type, h.block, body⟩ :: (← handlers inner list after hs)

/-- The switch statement of a block with a given layout. -/
def switch (inner : Structurer) (list : List Nat) (id : Nat) (plan : SwitchPlan)
    (after : Option Nat) : Partition Section :=
  return .switch id (← cases inner list (list[plan.join]?.or after) plan.cases)

/-- The try statement of a group with a given layout. -/
def tryStatement (inner : Structurer) (list : List Nat) (i : Nat)
    (group : TryGroup) (plan : TryPlan) (after : Option Nat) :
    Partition Section := do
  use group
  let after := list[plan.join]?.or after
  let body ← inner (← slice list i plan.bodyStop) after
  return .tryCatch body (← handlers inner list after plan.handlers)

/-- How the regions inside a region are structured. -/
abbrev RegionStructurer := (isLoop : Bool) → List Nat → Option Nat →
    Partition Section

/-- The section of the region that starts at position `i` of a region, with
the position after it, if it ends before the region does. -/
def nestedAt (inner : Structurer) (nested : RegionStructurer)
    (region : List Nat) (i id : Nat) :
    Partition (Option (Nat × Section)) := do
  let b ← block id
  if b.folded.isSome then return none
  let before (stop : Nat) (k : Nat → Partition Section) :
      Partition (Option (Nat × Section)) :=
    match region[stop]? with
    | some next => return some (stop, ← k next)
    | none => return none
  match ← tryPlan? region id with
  | some (group, plan) =>
    before plan.join fun next => tryStatement inner region i group plan
      (some next)
  | none =>
    if b.exit.isSwitch then
      let plan ← switchPlan region i
      before plan.join fun next => switch inner region id plan (some next)
    else
      match ← lastBackEdge? region i with
      | some last =>
        before (last + 1) fun next => do
          nested true (← slice region i (last + 1)) (some next)
      | none =>
        if b.exit.isBranch || (← jumpsIntoTest region i) then
          match (← extent? region i).filter (i < ·) with
          | some stop =>
            before stop fun next => do
              nested false (← slice region i stop) (some next)
          | none => return none
        else return none

/-- Folds the regions inside a region from position `i` on.  Each step moves on
by one position, so the length of the region is fuel enough.  A switch that
leads back may end in front of its head, and then cannot be folded. -/
def foldNested (inner : Structurer) (nested : RegionStructurer) :
    (fuel : Nat) → (i : Nat) → List Nat → Partition (List Nat)
  | 0, i, region => do
    match ← next? region i with
    | none => return region
    | some _ => fail .nestingTooDeep
  | n + 1, i, region => do
    match ← next? region i with
    | none => return region
    | some id =>
      match ← nestedAt inner nested region i id with
      | none => foldNested inner nested n (i + 1) region
      | some (stop, s) =>
        if stop ≤ i then fail .nestingTooDeep
        else
          change region fun g => g.fold id s region[stop]?
          foldNested inner nested n (i + 1)
            ((← slice region 0 (i + 1)) ++ (← slice region stop region.length))

/-- The section of a region.  Regions inside it are shorter, so its length is
fuel enough. -/
def regionSection (ctx : Context) (inner : Structurer) : (fuel : Nat) →
      RegionStructurer
  | _, _, [], _ => fail .nestingTooDeep
  | 0, _, _ :: _, _ => fail .nestingTooDeep
  | n + 1, isLoop, first :: rest, after => do
    if isLoop then loop ctx inner first rest after
    else if (← exit first).isJump then
      jumpEntered ctx inner first rest after
    else
      match ← foldNested inner (regionSection ctx inner n) rest.length 1
        (first :: rest) with
      | first :: rest => branch ctx inner first rest after
      | [] => fail .nestingTooDeep

/-- The section that starts at position `i` of a list, and the position after
it. -/
def sectionAt (ctx : Context) (inner : Structurer) (list : List Nat)
    (after : Option Nat) (i id : Nat) : Partition (Section × Nat) := do
  let b ← block id
  let alone : Partition (Section × Nat) := do
    return (← single id (list[i + 1]?.or after), i + 1)
  if b.folded.isSome then alone
  else
    match ← tryPlan? list id with
    | some (group, plan) =>
      return (← tryStatement inner list i group plan after, plan.join)
    | none =>
      let region (isLoop : Bool) (stop : Nat) : Partition (Section × Nat) := do
        let s ← regionSection ctx inner (stop - i) isLoop (← slice list i stop)
          (list[stop]?.or after)
        return (s, stop)
      if b.exit.isSwitch then
        let plan ← switchPlan list i
        return (← switch inner list id plan after, max plan.join (i + 1))
      else
        match ← lastBackEdge? list i with
        | some last => region true (last + 1)
        | none =>
          if b.exit.isBranch || (← jumpsIntoTest list i) then
            match (← extent? list i).filter (i < ·) with
            | some stop => region false stop
            | none => irreducible id
          else alone

/-- The sections of a list from position `i` on.  Each section takes up at
least one position, so the length of the list is fuel enough. -/
def sectionsFrom (ctx : Context) (inner : Structurer) (list : List Nat)
    (after : Option Nat) :
    (fuel : Nat) → (i : Nat) → Partition (List Section)
  | 0, i => do
    match ← next? list i with
    | none => return []
    | some _ => fail .nestingTooDeep
  | n + 1, i => do
    match ← next? list i with
    | none => return []
    | some id =>
      let (s, next) ← sectionAt ctx inner list after i id
      return s :: (← sectionsFrom ctx inner list after n next)

/-- The sections of a list of blocks after which control goes on at `after`.
The runs inside them nest at most `depth` deep. -/
def sections (ctx : Context) : (depth : Nat) → Structurer
  | 0, _, _ => fail .nestingTooDeep
  | d + 1, list, after =>
    sectionsFrom ctx (sections ctx d) list after list.length 0

end Decompiler.Partition

namespace Decompiler

/-- What is to be taken apart at the start. -/
def Work.start (ctx : Context) (g : Graph) : Work where
  graph := g
  pending :=
    if ctx.recover.tryStatements then TryGroup.ofMethod g ctx.method else []

/-- Runs get shorter from one nesting level to the next, or else a group of
exception ranges has been used up. -/
def Work.depth (w : Work) : Nat :=
  (w.graph.blocks.length + 1) * (w.pending.length + 2)

/-- The sections of a method, and the work as it is left when they have been
found. -/
def Graph.takeApart (g : Graph) (ctx : Context) :
    Except Fault (List Section × Work) :=
  let w := Work.start ctx g
  (Partition.sections ctx w.depth (List.range g.blocks.length) none).run w

/-- The sections of a method, and the graph as it is left when they have been
found. -/
def Graph.partition (g : Graph) (ctx : Context) :
    Except Fault (List Section × Graph) := do
  let (s, w) ← g.takeApart ctx
  return (s, w.graph)

end Decompiler
