import Decompiler.Bytecode.Kind

/-!
# Instructions

One constructor for each instruction of the stack machine.  Labels and debug
markers are part of the instruction stream and do nothing when run.
-/

namespace Decompiler

/-- A name for a point of the instruction stream. -/
structure Label where
  number : Nat
deriving Repr, DecidableEq

/-- The written form of a label. -/
def Label.text (l : Label) : String := s!"L{l.number}"

/-- A constant.  Floating-point constants are kept as their words. -/
inductive Literal
  | int (value : Int32)
  | long (value : Int64)
  | float (word : UInt32)
  | double (word : UInt64)
  | string (text : String)
  | classLiteral (name : String)
deriving Repr, DecidableEq

/-- One instruction. -/
inductive Instr
  | label (label : Label)
  | line (number : Nat)
  | frame
  | nop
  | null
  | constant (value : Literal)
  | load (kind : Kind) (slot : Nat)
  | store (kind : Kind) (slot : Nat)
  | arrayLoad (kind : Kind)
  | arrayStore (kind : Kind)
  | pop
  | pop2
  | dup
  | dupX1
  | dupX2
  | dup2
  | dup2X1
  | dup2X2
  | swap
  | arith (op : ArithOp) (kind : Kind)
  | neg (kind : Kind)
  | increment (slot : Nat) (delta : Int32)
  | convert (source target : Kind)
  | compare (how : ThreeWay)
  /-- Jumps when the int on top compares with zero as told. -/
  | ifZero (op : Comparison) (target : Label)
  /-- Jumps when the two ints on top compare as told. -/
  | ifInts (op : Comparison) (target : Label)
  /-- Jumps when the two references on top compare as told. -/
  | ifReferences (op : Comparison) (target : Label)
  | ifNull (target : Label)
  | ifNonNull (target : Label)
  | goto (target : Label)
  /-- The keys are consecutive, from `low` on. -/
  | tableSwitch (low high : Int32) (default : Label) (targets : List Label)
  | lookupSwitch (default : Label) (pairs : List (Int32 × Label))
  | ret (kind : Option Kind)
  | throw
  | getStatic (field : Member)
  | putStatic (field : Member)
  | getField (field : Member)
  | putField (field : Member)
  | call (how : CallKind) (method : Member)
  | callDynamic (name descriptor : String)
  | new (type : String)
  | newArray (component : String)
  | arrayLength
  | checkCast (type : String)
  | instanceOf (type : String)
  | monitorEnter
  | monitorExit
  | newMultiArray (descriptor : String) (dimensions : Nat)
deriving Repr, DecidableEq

/-- What an instruction does to the flow of control. -/
inductive Control
  /-- Goes on with the next instruction. -/
  | plain
  /-- Does nothing at all: a label or a debug marker. -/
  | marker
  /-- Always jumps. -/
  | jump
  /-- Jumps or goes on. -/
  | branch
  | switch
  | ret
  | throw
deriving Repr, DecidableEq

namespace Instr

/-- What an instruction does to the flow of control. -/
def control : Instr → Control
  | label _ | line _ | frame => .marker
  | goto _ => .jump
  | ifZero .. | ifInts .. | ifReferences .. | ifNull _ | ifNonNull _ => .branch
  | tableSwitch .. | lookupSwitch .. => .switch
  | ret _ => .ret
  | throw => .throw
  | _ => .plain

/-- Whether an instruction is a label or a debug marker. -/
def isMarker (i : Instr) : Bool := i.control == .marker

/-- The label that an instruction places. -/
def label? : Instr → Option Label
  | label l => some l
  | _ => none

/-- Where a jump goes. -/
def jumpTarget? : Instr → Option Label
  | ifZero _ l | ifInts _ l | ifReferences _ l | ifNull l | ifNonNull l | goto
      l => some l
  | _ => none

/-- The keys of a switch with their labels, in table order, and its default.
The keys of a table wrap around like every int. -/
def switchTable? : Instr → Option (List (Int32 × Label) × Label)
  | tableSwitch low _ default targets =>
    some (targets.zipIdx.map fun (l, n) => (low + Int32.ofNat n, l), default)
  | lookupSwitch default pairs => some (pairs, default)
  | _ => none

/-- The short name of an instruction. -/
def mnemonic : Instr → String
  | label _ => "label"
  | line _ => "line"
  | frame => "frame"
  | nop => "nop"
  | null => "aconst_null"
  | constant _ => "ldc"
  | load .. => "load"
  | store .. => "store"
  | arrayLoad _ => "xaload"
  | arrayStore _ => "xastore"
  | pop => "pop"
  | pop2 => "pop2"
  | dup => "dup"
  | dupX1 => "dup_x1"
  | dupX2 => "dup_x2"
  | dup2 => "dup2"
  | dup2X1 => "dup2_x1"
  | dup2X2 => "dup2_x2"
  | swap => "swap"
  | arith .. => "arith"
  | neg _ => "neg"
  | increment .. => "iinc"
  | convert .. => "convert"
  | compare _ => "cmp"
  | ifZero .. => "if"
  | ifInts .. => "if_icmp"
  | ifReferences .. => "if_acmp"
  | ifNull _ => "ifnull"
  | ifNonNull _ => "ifnonnull"
  | goto _ => "goto"
  | tableSwitch .. => "tableswitch"
  | lookupSwitch .. => "lookupswitch"
  | ret _ => "return"
  | throw => "athrow"
  | getStatic _ => "getstatic"
  | putStatic _ => "putstatic"
  | getField _ => "getfield"
  | putField _ => "putfield"
  | call .. => "invoke"
  | callDynamic .. => "invokedynamic"
  | new _ => "new"
  | newArray _ => "newarray"
  | arrayLength => "arraylength"
  | checkCast _ => "checkcast"
  | instanceOf _ => "instanceof"
  | monitorEnter => "monitorenter"
  | monitorExit => "monitorexit"
  | newMultiArray .. => "multianewarray"

end Instr

end Decompiler
