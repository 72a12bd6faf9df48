import Decompiler.Source.Condition.Basic

/-!
# Conditions in normal form

A condition in normal form is a constant or has no constant inside, nests no
junction directly in one of its own kind, and has at least two members in
every junction.
-/

namespace Decompiler.Condition

/-- The junction of conditions that are in normal form themselves.  Neutral
members are dropped, a member of the other constant decides the whole, and
members that are such junctions are opened. -/
def gather (j : Junction) (cs : List Condition) : Condition :=
  if cs.any (·.isConst !j.neutral) then const !j.neutral
  else
    match (cs.filter fun c => !c.isConst j.neutral).flatMap j.members with
    | [] => const j.neutral
    | ds => j.of ds

mutual

/-- The normal form of a condition. -/
def normalize : Condition → Condition
  | all cs => gather .all (normalizes cs)
  | any cs => gather .any (normalizes cs)
  | c => c

/-- The normal forms of a list of conditions. -/
def normalizes : List Condition → List Condition
  | [] => []
  | c :: cs => c.normalize :: normalizes cs

end

end Decompiler.Condition
