import Decompiler.Bytecode.Instr
import Decompiler.Section

/-!
# Block graphs

A basic block is a run of instructions that control enters at the front and
leaves at the end.  The graph of a method numbers its blocks in the order of
their instructions; edges are the numbers of the blocks they lead to.
-/

namespace Decompiler

/-- The keys of a switch that lead to one block. -/
structure SwitchArm where
  keys : List Int32
  target : Nat
deriving Repr, DecidableEq

/-- How control leaves a block. -/
inductive Exit
  /-- Runs into the next block, or off the end of the method. -/
  | falls (next : Option Nat)
  | jumps (target : Nat)
  /-- Jumps or runs into the next block, if there is one. -/
  | branches (taken : Nat) (otherwise : Option Nat)
  /-- Each arm has a block of its own; all other values go to the default. -/
  | selects (arms : List SwitchArm) (default : Nat)
  | returns
  | throws
deriving Repr, DecidableEq

namespace Exit

/-- The block that the edge of a jump, of a taken branch or into the next
block leads to. -/
def target? : Exit → Option Nat
  | falls next => next
  | jumps target => some target
  | branches taken _ => some taken
  | _ => none

/-- The block that a branch which is not taken runs into. -/
def otherwise? : Exit → Option Nat
  | branches _ otherwise => otherwise
  | _ => none

/-- Where a jump goes that is always taken. -/
def jump? : Exit → Option Nat
  | jumps target => some target
  | _ => none

/-- Only a jump always leads to the same block. -/
theorem eq_jumps_of_jump? {e : Exit} {target : Nat}
    (h : e.jump? = some target) : e = jumps target := by
  cases e <;> cases h
  rfl

/-- An exit with a target and a way past it is a branch. -/
theorem eq_branches_of_otherwise? {e : Exit} {taken fallen : Nat}
    (htaken : e.target? = some taken) (hfallen : e.otherwise? = some fallen) :
    e = branches taken (some fallen) := by
  cases e <;> cases hfallen
  cases htaken
  rfl

def isJump (e : Exit) : Bool := e.jump?.isSome

def isBranch : Exit → Bool
  | branches .. => true
  | _ => false

def isSwitch : Exit → Bool
  | selects .. => true
  | _ => false

/-- The blocks that control may go to next, in the order of the edges.  A
block comes twice if two edges lead to it. -/
def successors : Exit → List Nat
  | falls next => next.toList
  | jumps target => [target]
  | branches taken otherwise => taken :: otherwise.toList
  | selects arms default => arms.map (·.target) ++ [default]
  | returns | throws => []

/-- Redirects every edge. -/
def mapTargets (f : Nat → Nat) : Exit → Exit
  | falls next => falls (next.map f)
  | jumps target => jumps (f target)
  | branches taken otherwise => branches (f taken) (otherwise.map f)
  | selects arms default =>
    selects (arms.map fun a => { a with target := f a.target }) (f default)
  | returns => returns
  | throws => throws

/-- The successors are renamed as the targets are. -/
theorem successors_mapTargets (f : Nat → Nat) (e : Exit) :
    (e.mapTargets f).successors = e.successors.map f := by
  cases e with
  | falls next => cases next <;> rfl
  | jumps target => rfl
  | branches taken otherwise => cases otherwise <;> rfl
  | selects arms default => simp [mapTargets, successors, Function.comp_def]
  | returns => rfl
  | throws => rfl

@[simp] theorem mapTargets_id (e : Exit) : e.mapTargets id = e := by
  cases e <;> simp [mapTargets]

/-- Renaming targets twice is renaming them once. -/
theorem mapTargets_mapTargets (f h : Nat → Nat) (e : Exit) :
    (e.mapTargets f).mapTargets h = e.mapTargets (h ∘ f) := by
  cases e <;> simp [mapTargets, Function.comp_def]

end Exit

/-- How control comes into a block. -/
inductive Entry
  | plain
  /-- By an exception of the given type, or of every type. -/
  | handler (type : Option String)
deriving Repr, DecidableEq

/-- A basic block. -/
structure Block where
  id : Nat
  /-- The instruction that ends the block: a jump, switch, return or throw, or
  the label that the next block starts after. -/
  breakPoint : Nat
  /-- The instructions run in this block are those of `[start, stop)`.  A
  return or throw at the end is one of them, a jump or switch is not. -/
  start : Nat
  stop : Nat
  exit : Exit
  entry : Entry := .plain
  /-- The blocks with an edge to this one, in ascending order. -/
  preds : List Nat := []
  /-- The finished structure of the region that starts here, once the region
  has been folded into this block. -/
  folded : Option Section := none
deriving Repr

/-- The block that stands for a number without one. -/
def Block.blank : Block :=
  { id := 0, breakPoint := 0, start := 0, stop := 0, exit := .falls none }

/-- The blocks of a method, and the block that starts right after each label
that ends one. -/
structure Graph where
  blocks : List Block
  labels : List (Label × Nat)
deriving Repr

namespace Graph

/-- The block of a number; a blank one if there is none. -/
def block (g : Graph) (id : Nat) : Block := g.blocks.getD id .blank

/-- How control leaves a block. -/
def exit (g : Graph) (id : Nat) : Exit := (g.block id).exit

/-- The blocks that control may go to after a block. -/
def successors (g : Graph) (id : Nat) : List Nat := (g.exit id).successors

/-- The block that starts right after a label. -/
def blockAt? (g : Graph) (l : Label) : Option Nat := g.labels.lookup l

/-- Changes one block. -/
def modify (g : Graph) (id : Nat) (f : Block → Block) : Graph :=
  { g with blocks := g.blocks.modify id f }

/-- Changing a block makes no block. -/
theorem length_modify (g : Graph) (id : Nat) (f : Block → Block) :
    (g.modify id f).blocks.length = g.blocks.length := by
  simp [modify]

/-- The other blocks stay as they are. -/
theorem block_modify_of_ne {id other : Nat} (g : Graph) (f : Block → Block)
    (h : id ≠ other) : (g.modify id f).block other = g.block other := by
  simp [modify, block, List.getD_eq_getElem?_getD, h]

/-- A block that there is is changed as asked. -/
theorem block_modify_self {id : Nat} (g : Graph) (f : Block → Block)
    (h : id < g.blocks.length) : (g.modify id f).block id = f (g.block id) := by
  simp [modify, block, List.getD_eq_getElem?_getD, h]

/-- Redirects every edge of one block. -/
def redirect (g : Graph) (id : Nat) (f : Nat → Nat) : Graph :=
  g.modify id fun b => { b with exit := b.exit.mapTargets f }

/-- Redirects every edge of the graph, and the blocks of labels with them. -/
def redirectAll (g : Graph) (f : Nat → Nat) : Graph where
  blocks := g.blocks.map fun b => { b with exit := b.exit.mapTargets f }
  labels := g.labels.map fun (l, id) => (l, f id)

/-- Finds the predecessors of every block from the edges. -/
def linkBack (g : Graph) : Graph :=
  let preds (id : Nat) : List Nat :=
    (g.blocks.zipIdx.filter fun (b, _) => b.exit.successors.contains id).map
      (·.2)
  { g with
    blocks := g.blocks.zipIdx.map fun (b, id) => { b with preds := preds id } }

end Graph

end Decompiler
