import Decompiler.Text.Quoted

/-!
# Why a method cannot be decompiled

Every way in which decompiling can fail, as a cause with the facts that
identify it, and the wording of each cause.
-/

namespace Decompiler

/-- What keeps a conditional jump from being read as one test. -/
inductive TestObstacle
  /-- The block leaves more or fewer values than the jump takes. -/
  | operandCount
  /-- The block does something before it computes the operands. -/
  | statementsFirst
  /-- The block does not end in a conditional jump. -/
  | notConditional
deriving Repr, DecidableEq

/-- The wording of an obstacle. -/
def TestObstacle.message : TestObstacle → String
  | operandCount => "operand stack does not hold exactly the jump operands"
  | statementsFirst => "statements before the comparison"
  | notConditional => "not a conditional jump"

/-- A cause of failure.  Instructions are named by their index. -/
inductive Fault
  /-- A text that is not a method descriptor. -/
  | invalidDescriptor (descriptor : String)
  /-- A label placed at two points of one method. -/
  | duplicateLabel (label : Nat)
  /-- A local variable whose range is bounded by a label without a place. -/
  | unknownLocalLabel (name : String) (label : Nat)
  /-- A jump or switch to a label that no block starts after. -/
  | unresolvedLabel (label index : Nat)
  /-- A conditional jump that is not one test of its operands. -/
  | testShape (index : Nat) (obstacle : TestObstacle)
  /-- A test that leads neither to the guarded code nor past it. -/
  | edgeEscapes (index : Nat)
  /-- A branch whose two ways do not meet again in one place. -/
  | irreducible (index : Nat)
  /-- A conditional or switch left over in straight-line code. -/
  | unresolvedConditional (index : Nat)
  /-- An instruction that takes more values than the stack holds. -/
  | stackUnderflow (index : Nat)
  /-- A switch without a value to select by. -/
  | missingSelector (index : Nat)
  /-- An instruction with no meaning as an expression or statement. -/
  | unsupported (mnemonic : String) (index : Nat)
  /-- A block number that names no block of the graph. -/
  | missingBlock (block : Nat)
  /-- Structures nested more deeply than the graph has room for. -/
  | nestingTooDeep
deriving Repr, DecidableEq

/-- The wording of a cause. -/
def Fault.message : Fault → String
  | invalidDescriptor d => "Invalid descriptor " ++ Text.quoted d
  | duplicateLabel l => s!"Label L{l} defined more than once"
  | unknownLocalLabel name l =>
    "Local variable " ++ Text.quoted name ++ s!" references unknown label L{l}"
  | unresolvedLabel l i =>
    s!"Jump at instruction {i} targets unresolved label L{l}"
  | testShape i o =>
    s!"Conditional at instruction {i} has no simple form: " ++ o.message
  | edgeEscapes i =>
    s!"Conditional at instruction {i} jumps outside its condition chain"
  | irreducible i =>
    s!"No region end for branch at instruction {i}, control flow is not reducible"
  | unresolvedConditional i =>
    s!"Unresolved conditional at instruction {i} inside a structured body"
  | stackUnderflow i => s!"Operand stack underflow at instruction {i}"
  | missingSelector i =>
    s!"Unexpected operand at instruction {i}: expected switch selector"
  | unsupported m i => s!"Unsupported instruction {m} at {i}"
  | missingBlock b => s!"No block {b} in the graph"
  | nestingTooDeep => "Structures nested too deeply"

end Decompiler
