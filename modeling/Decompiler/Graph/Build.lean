import Decompiler.Bytecode.Method
import Decompiler.Graph.Block

/-!
# From instructions to blocks

A block ends at an instruction that directs control elsewhere, and at a label
that such an instruction or an exception range refers to.  The next block
starts right after it.  So the instructions are cut at these break points, and
what is left at the end is a block if it does anything.
-/

namespace Decompiler

/-- The labels that control may go to after an instruction. -/
def Instr.destinations (i : Instr) : List Label :=
  match i.jumpTarget?, i.switchTable? with
  | some l, _ => [l]
  | none, some (pairs, default) => pairs.map (·.2) ++ [default]
  | none, none => []

/-- Whether an instruction ends its block wherever it stands. -/
def Instr.endsBlock (i : Instr) : Bool :=
  match i.control with
  | .jump | .branch | .switch | .ret | .throw => true
  | .plain | .marker => false

/-- A run of instructions, up to its break point. -/
structure Span where
  breakPoint : Nat
  start : Nat
  stop : Nat
deriving Repr, DecidableEq

namespace Method

/-- Applies a look-up to the labels of the instruction at `index`, and reports
the first label without an answer. -/
def locate (find : Label → Option Nat) (index : Nat) : List Label →
      Except Fault (List Nat)
  | [] => .ok []
  | l :: ls =>
    match find l with
    | none => .error (.unresolvedLabel l.number index)
    | some a => (a :: ·) <$> locate find index ls

/-- Where the labels stand that jumps and switches go to. -/
def destinations (m : Method) : List (Nat × Instr) → Except Fault (List Nat)
  | [] => .ok []
  | (index, i) :: rest => do
    let here ← locate m.labelIndex? index i.destinations
    let others ← m.destinations rest
    return here ++ others

/-- Where the labels stand that exception ranges refer to. -/
def rangeBoundaries (m : Method) : List Nat :=
  (m.ranges.flatMap fun r => [r.start, r.stop, r.handler]).filterMap
    m.labelIndex?

/-- The instructions that end a block, in ascending order. -/
def breakPoints (m : Method) : Except Fault (List Nat) := do
  let destinations ← m.destinations (m.slice 0 m.length)
  let ends (i : Nat) : Bool :=
    (m.instr i).endsBlock || destinations.contains i ||
      m.rangeBoundaries.contains i
  return (List.range m.length).filter ends

/-- The end of the instructions run before the break point is passed, the
break point included if it is a return or throw. -/
def bodyStop (m : Method) (breakPoint : Nat) : Nat :=
  match (m.instr breakPoint).control with
  | .ret | .throw => breakPoint + 1
  | _ => breakPoint

/-- Cuts the instructions from `start` on at the break points. -/
def cut (m : Method) : (start : Nat) → List Nat → List Span
  | start, [] =>
    if m.acts start m.length then [⟨m.length, start, m.length⟩] else []
  | start, b :: bs => ⟨b, start, m.bodyStop b⟩ :: m.cut (b + 1) bs

/-- The label that ends each span, with the number of the span after it. -/
def spanLabels (m : Method) (spans : List Span) : List (Label × Nat) :=
  spans.zipIdx.filterMap fun (span, id) =>
    match (m.instr span.breakPoint).label? with
    | some l => if id + 1 < spans.length then some (l, id + 1) else none
    | none => none

/-- Adds a key to the arm of its target, or a new arm at the end. -/
def addKey (key : Int32) (target : Nat) : List SwitchArm → List SwitchArm
  | [] => [⟨[key], target⟩]
  | a :: as =>
    if a.target = target then { a with keys := a.keys ++ [key] } :: as
    else a :: addKey key target as

/-- The arms of a switch, in the order in which their targets first appear. -/
def arms (pairs : List (Int32 × Nat)) : List SwitchArm :=
  pairs.foldl (fun as (key, target) => addKey key target as) []

/-- How control leaves a block that ends with an instruction, when `targets`
are the blocks of its destinations and `next` is the block after it. -/
def exitTo (i : Instr) (next : Option Nat) (targets : List Nat) : Exit :=
  match i.control, targets, i.switchTable?, targets.getLast? with
  | .jump, target :: _, _, _ => .jumps target
  | .branch, target :: _, _, _ => .branches target next
  | .switch, _, some (pairs, _), some default =>
    .selects (arms ((pairs.map (·.1)).zip targets)) default
  | .ret, _, _, _ => .returns
  | .throw, _, _, _ => .throws
  | _, _, _, _ => .falls next

/-- How control comes into a block.  Of several ranges with this handler the
last one tells the type. -/
def entryOf (m : Method) (find : Label → Option Nat) (id : Nat) : Entry :=
  match (m.ranges.filter fun r => find r.handler == some id).getLast? with
  | some r => .handler r.type
  | none => .plain

/-- The blocks of consecutive spans, numbered from `id` on out of `count`. -/
def blocksOf (m : Method) (find : Label → Option Nat) (count : Nat) :
    (id : Nat) → List Span → Except Fault (List Block)
  | _, [] => .ok []
  | id, span :: spans => do
    let next := if id + 1 < count then some (id + 1) else none
    let i := m.instr span.breakPoint
    let targets ← locate find span.breakPoint i.destinations
    let rest ← m.blocksOf find count (id + 1) spans
    return { id, breakPoint := span.breakPoint, start := span.start,
             stop := span.stop,
             exit := exitTo i next targets, entry := m.entryOf find id } :: rest

/-- The block graph of a method. -/
def graph (m : Method) : Except Fault Graph := do
  let spans := m.cut 0 (← m.breakPoints)
  let labels := m.spanLabels spans
  let blocks ← m.blocksOf (labels.lookup ·) spans.length 0 spans
  return Graph.linkBack ⟨blocks, labels⟩

end Method

end Decompiler
