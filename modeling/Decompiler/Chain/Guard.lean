import Decompiler.Chain.Paths
import Decompiler.Chain.Test
import Decompiler.Source.Condition.Normal

/-!
# The guard of a body

The condition under which control that enters a chain of tests at its first
block goes on into a body, and not past it.
-/

namespace Decompiler.Graph

/-- Where an edge out of a chain leads.  An edge into the body counts as such
even when the body is also what comes after it. -/
def dest (g : Graph) (chain : List Nat) (body : Nat) (after : Option Nat)
    (source : Nat) :
    Option Nat → Except Fault Dest
  | none => .error (.edgeEscapes (g.block source).breakPoint)
  | some t =>
    if t = body then .ok .body
    else if after = some t then .ok .exit
    else if chain.contains t then .ok (.test (chain.idxOf t))
    else .error (.edgeEscapes (g.block source).breakPoint)

/-- The two edges of a test in a chain. -/
def fork (g : Graph) (chain : List Nat) (body : Nat) (after : Option Nat)
    (id : Nat) :
    Except Fault Fork := do
  let taken ← g.dest chain body after id (g.exit id).target?
  let fallen ← g.dest chain body after id (g.exit id).otherwise?
  return ⟨taken, fallen⟩

/-- The condition under which a chain of tests leads into `body`.  Every edge
out of the chain has to go there or to `after`, and none back along the way. -/
def guard (g : Graph) (ctx : Context) (chain : List Nat) (body : Nat)
    (after : Option Nat) :
    Except Fault Condition := do
  let tests ← chain.mapM (g.test ctx)
  let forks ← chain.mapM (g.fork chain body after)
  match Chain.paths forks chain.length [] 0 with
  | .error position =>
    throw (.edgeEscapes (g.block (chain.getD position 0)).breakPoint)
  | .ok ps => return (Condition.ofPaths tests chain.length ps).normalize

end Decompiler.Graph
