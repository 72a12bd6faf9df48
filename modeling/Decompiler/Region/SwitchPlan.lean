import Decompiler.Graph.Block
import Decompiler.Order.Stable

/-!
# The layout of a switch

The arms of a switch divide the list after it into runs, one for each case, up
to the join where the cases meet again.  The join is the furthest block that
the last jump of a case leads to beyond all cases.
-/

namespace Decompiler

/-- Where the code of an arm starts. -/
structure ArmStart where
  position : Nat
  keys : List Int32
  isDefault : Bool
deriving Repr, DecidableEq

/-- The run of a case, its last jump to the join left out if it breaks. -/
structure CaseSpan where
  keys : List Int32
  isDefault : Bool
  start : Nat
  stop : Nat
  breaks : Bool
deriving Repr, DecidableEq

/-- The runs of all cases, and the position of the block after the switch or
the length of the list. -/
structure SwitchPlan where
  cases : List CaseSpan
  join : Nat
deriving Repr, DecidableEq

namespace SwitchPlan

/-- Marks the arm that is also the default, or adds an arm without keys. -/
def markDefault (list : List Nat) (default : Nat) : List ArmStart →
      List ArmStart
  | [] => [⟨list.idxOf default, [], true⟩]
  | a :: as =>
    if list[a.position]? = some default then { a with isDefault := true } :: as
    else a :: markDefault list default as

/-- The arms of a switch in the order in which they start. -/
def armStarts (list : List Nat) (arms : List SwitchArm) (default : Nat) :
    List ArmStart :=
  let starts := arms.map fun a => ⟨list.idxOf a.target, a.keys, false⟩
  Order.sortOn (·.position) (markDefault list default starts)

/-- Where the block at a position always jumps to. -/
def jumpPosition? (g : Graph) (list : List Nat) (p : Nat) : Option Nat :=
  ((list[p]?.map g.exit) >>= Exit.jump?).map (list.idxOf ·)

/-- Where the arms' last blocks jump to, if that is not before `last`.  The
last arm has no end yet, and an arm outside the list has no blocks. -/
def joins (g : Graph) (list : List Nat) (last : Nat) : List ArmStart → List Nat
  | a :: b :: as =>
    let rest := joins g list last (b :: as)
    if a.position < b.position ∧ a.position < list.length then
      ((jumpPosition? g list (b.position - 1)).filter (last ≤ ·)).toList ++ rest
    else rest
  | _ => []

/-- The join of a switch.  Without a jump that tells it, it is where a default
without keys leads, if that comes last, or else outside the list. -/
def joinPosition (g : Graph) (list : List Nat) (starts : List ArmStart) : Nat :=
  let last := (starts.getLast?.map (·.position)).getD 0
  match (joins g list last starts).max?, starts.getLast? with
  | some j, _ => j
  | none, some ⟨p, [], true⟩ => p
  | none, _ => list.length

/-- The runs of the cases.  An arm at or beyond the join has an empty run that
breaks, and none at all if it is only the default. -/
def spans (g : Graph) (list : List Nat) (join : Nat) : List ArmStart →
      List CaseSpan
  | [] => []
  | a :: as =>
    let rest := spans g list join as
    if join ≤ a.position then
      if a.isDefault && a.keys.isEmpty then rest
      else ⟨a.keys, a.isDefault, join, join, true⟩ :: rest
    else
      let stop := ((as.head?.map (·.position)).map (min join)).getD join
      let breaks :=
        a.position < stop && jumpPosition? g list (stop - 1) == some join
      ⟨a.keys, a.isDefault, a.position, if breaks then stop - 1 else stop,
        breaks⟩ :: rest

end SwitchPlan

/-- The layout of the switch at position `i`. -/
def Graph.switchPlan (g : Graph) (list : List Nat) (i : Nat) : SwitchPlan :=
  match list[i]?.map g.exit with
  | some (.selects arms default) =>
    let starts := SwitchPlan.armStarts list arms default
    let join := SwitchPlan.joinPosition g list starts
    ⟨SwitchPlan.spans g list join starts, join⟩
  | _ => ⟨[], i + 1⟩

end Decompiler
