import Decompiler.Region.TryPlan

/-!
# Work on a graph

Partitioning a method takes its graph apart: edges are redirected, finished
regions are folded into their first block, and groups of exception ranges are
used up.  This file holds that state and the changes to its graph.
-/

namespace Decompiler

namespace Graph

/-- Adds a number to an ascending list without repetition. -/
def insertPred (id : Nat) : List Nat → List Nat
  | [] => [id]
  | p :: ps =>
    if id < p then
      id :: p :: ps else if id = p then p :: ps else p :: insertPred id ps

/-- Turns the edges of a block to the head of its loop into edges to the jump
that closes the loop, so that they lead to the end of the loop's body. -/
def continueAt (g : Graph) (head closing id : Nat) : Graph :=
  if (g.successors id).contains head then
    let g := g.redirect id fun t => if t = head then closing else t
    let g := g.modify head fun b => { b with preds := b.preds.erase id }
    g.modify closing fun b => { b with preds := insertPred id b.preds }
  else g

/-- Leaves a finished region as its first block alone, which holds the
structure of the region and falls through to what comes after. -/
def fold (g : Graph) (id : Nat) (s : Section) (next : Option Nat) : Graph :=
  g.modify id fun b => { b with folded := some s, exit := .falls next }

/-- Takes the structure out of a folded block. -/
def unfold (g : Graph) (id : Nat) : Graph :=
  g.modify id fun b => { b with folded := none }

end Graph

/-- A graph being taken apart, and the groups of exception ranges that have
not been used. -/
structure Work where
  graph : Graph
  pending : List TryGroup
deriving Repr

end Decompiler
