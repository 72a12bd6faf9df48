import Decompiler.Region.Loop

/-!
# Branches

A branch region is a run of tests, the body they guard, and whatever comes
instead of it: more tests with bodies of their own, or one last body.
-/

namespace Decompiler.Partition

/-- The tests and the body at the front of a region, and the blocks of the
alternative. -/
def arm (ctx : Context) (inner : Structurer) (first : Nat) (rest : List Nat)
    (after : Option Nat) : Partition (Condition × List Section × List Nat) := do
  let region := first :: rest
  let g ← graph region
  match ← testRun? region after
    (rest.takeWhile fun id => (g.exit id).isBranch).length with
  | none => irreducible first
  | some run =>
    let cond ← guard ctx (← slice region 0 run.size) run.body run.exit
    match Graph.alternativeStart? region after run with
    | none =>
      fail (.edgeEscapes (g.block (← member region (run.size - 1))).breakPoint)
    | some stop =>
      let body ← inner (← slice region run.size stop) after
      return (cond, body, ← slice region stop region.length)

/-- What comes instead of a body.  Each step takes at least one block off the
region, so its length is fuel enough. -/
def alternative (ctx : Context) (inner : Structurer) (after : Option Nat) :
    (fuel : Nat) → List Nat → Partition (Alternative Section)
  | _, [] => return .none
  | 0, _ :: _ => fail .nestingTooDeep
  | n + 1, first :: rest => do
    if (← exit first).isBranch then
      let (cond, body, others) ← arm ctx inner first rest after
      return .orIf cond body (← alternative ctx inner after n others)
    else return .otherwise (← inner (first :: rest) after)

/-- The branch statement of a region. -/
def branch (ctx : Context) (inner : Structurer) (first : Nat) (rest : List Nat)
    (after : Option Nat) : Partition Section := do
  let (cond, body, others) ← arm ctx inner first rest after
  return .ifElse cond body (← alternative ctx inner after others.length others)

end Decompiler.Partition
