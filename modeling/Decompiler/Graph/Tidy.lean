import Decompiler.Bytecode.Effect
import Decompiler.Bytecode.Method
import Decompiler.Graph.Block
import Decompiler.Order.Stable

/-!
# Tidy block graphs

Cutting at labels leaves blocks that do nothing, and blocks that do something
before they compute what their jump tests.  A tidy graph has neither:

1. Edges bypass the blocks that do nothing and run into another.
2. A block that ends in a jump or switch keeps only the instructions that
   compute its operands; what comes before becomes a block of its own in
   front of it.
3. The blocks that are left are numbered in the order of their instructions.
-/

namespace Decompiler

/-- The next block, if a block does nothing but run into it.  A handler is
never empty: an exception comes in with it. -/
def Block.bypass? (m : Method) (b : Block) : Option Nat :=
  match b.exit, b.entry with
  | .falls (some next), .plain =>
    if m.acts b.start b.stop then none else some next
  | _, _ => none

/-- The first of the given instructions, walking back from the last, such that
it and what follows leave exactly `need` values.  There is none when an
instruction on the way leaves nothing, or more than is needed. -/
def operandsFrom? (need : Nat) : List (Nat × Instr) → Except Fault (Option Nat)
  | [] => .ok none
  | (index, i) :: before => do
    if i.isMarker then operandsFrom? need before
    else
      let e ← i.effect
      if e.pushes = 0 ∨ need < e.pushes then return none
      else
        let need := need - e.pushes + e.pops
        if need = 0 then return some index else operandsFrom? need before

namespace Block

/-- Where the operands of the jump or switch at the end of a block start, if
they can be told apart. -/
def operandsFrom? (m : Method) (b : Block) : Except Fault (Option Nat) := do
  let e ← (m.instr b.breakPoint).effect
  Decompiler.operandsFrom? e.pops (m.slice b.start b.stop).reverse

/-- Where a block is to be split, if it ends in a jump or switch. -/
def splitPoint? (m : Method) (b : Block) : Except Fault (Option Nat) :=
  match b.exit with
  | .jumps _ => .ok (some b.stop)
  | .branches .. | .selects .. => b.operandsFrom? m
  | _ => .ok none

end Block

namespace Graph

/-- Follows blocks that do nothing, for at most `fuel` steps. -/
def settle (g : Graph) (m : Method) : (fuel : Nat) → (id : Nat) → Nat
  | 0, id => id
  | n + 1, id =>
    match (g.block id).bypass? m with
    | some next => g.settle m n next
    | none => id

/-- Leads every edge past the blocks that do nothing. -/
def bypass (g : Graph) (m : Method) : Graph :=
  g.redirectAll (g.settle m g.blocks.length)

/-- Moves the instructions of a block before `k` to a new block that runs into
it and takes over its edges and its entry. -/
def split (g : Graph) (id k : Nat) : Graph :=
  let header := g.blocks.length
  let b := g.block id
  let moved :=
    (g.redirectAll fun t => if t = id then header else t).modify id fun b =>
      { b with start := k, entry := .plain }
  { moved with
    blocks := moved.blocks ++
      [{ id := header, breakPoint := k, start := b.start, stop := k,
         exit := .falls (some id), entry := b.entry }] }

/-- Splits a block where its operands start, if it does anything before. -/
def isolate (g : Graph) (m : Method) (id : Nat) : Except Fault Graph := do
  let b := g.block id
  match ← b.splitPoint? m with
  | some k => return if m.acts b.start k then g.split id k else g
  | none => return g

/-- Splits blocks in turn. -/
def isolateAll (g : Graph) (m : Method) : List Nat → Except Fault Graph
  | [] => .ok g
  | id :: ids => do (← g.isolate m id).isolateAll m ids

/-- Drops some blocks and numbers the others in the order of their
instructions. -/
def renumber (g : Graph) (dropped : List Nat) : Graph :=
  let live := Order.sortOnPair (fun b => (b.start, b.breakPoint))
    (g.blocks.filter fun b => !dropped.contains b.id)
  let number (id : Nat) : Nat := live.findIdx (·.id == id)
  let moved := redirectAll { g with blocks := live } number
  { moved with blocks := moved.blocks.zipIdx.map fun (b, id) => { b with id } }

/-- The tidy form of a graph. -/
def tidy (g : Graph) (m : Method) : Except Fault Graph := do
  let ids := List.range g.blocks.length
  let idle (id : Nat) : Bool := ((g.block id).bypass? m).isSome
  let isolated ← (g.bypass m).isolateAll m (ids.filter (!idle ·))
  return (isolated.renumber (ids.filter idle)).linkBack

end Graph

end Decompiler
