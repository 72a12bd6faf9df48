/-!
# Kinds, operators and references

The small vocabularies that instructions are written in: the kinds of values,
the arithmetic and comparison operators, the ways to call a method, and named
members of classes.
-/

namespace Decompiler

/-- The category of value that an instruction works on. -/
inductive Kind
  | int
  | long
  | float
  | double
  | reference
  | byte
  | char
  | short
  | boolean
deriving Repr, DecidableEq

/-- The field descriptor of a kind; a reference is only known to be an
object. -/
def Kind.descriptor : Kind → String
  | int => "I"
  | long => "J"
  | float => "F"
  | double => "D"
  | reference => "Ljava/lang/Object;"
  | byte => "B"
  | char => "C"
  | short => "S"
  | boolean => "Z"

/-- Whether a value of this kind takes two stack slots. -/
def Kind.isWide : Kind → Bool
  | long | double => true
  | _ => false

/-- A binary arithmetic operator. -/
inductive ArithOp
  | add
  | sub
  | mul
  | div
  | rem
  | shiftLeft
  | shiftRight
  | shiftRightUnsigned
  | and
  | or
  | xor
deriving Repr, DecidableEq

/-- The operator between its operands. -/
def ArithOp.symbol : ArithOp → String
  | add => "+"
  | sub => "-"
  | mul => "*"
  | div => "/"
  | rem => "%"
  | shiftLeft => "<<"
  | shiftRight => ">>"
  | shiftRightUnsigned => ">>>"
  | and => "&"
  | or => "|"
  | xor => "^"

/-- A comparison of two values. -/
inductive Comparison
  | eq
  | ne
  | lt
  | ge
  | gt
  | le
deriving Repr, DecidableEq

/-- The comparison that holds exactly when the given one fails, on values that
are ordered. -/
def Comparison.negate : Comparison → Comparison
  | eq => ne
  | ne => eq
  | lt => ge
  | ge => lt
  | gt => le
  | le => gt

/-- Negating a comparison twice gives it back. -/
@[simp] theorem Comparison.negate_negate (op : Comparison) :
    op.negate.negate = op := by
  cases op <;> rfl

/-- The comparison between its operands. -/
def Comparison.symbol : Comparison → String
  | eq => "=="
  | ne => "!="
  | lt => "<"
  | ge => ">="
  | gt => ">"
  | le => "<="

/-- A three-way comparison of numbers that leaves -1, 0 or 1 on the stack.
The floating-point ones come in two forms, which answer -1 (low) or 1 (high)
when an operand is NaN. -/
inductive ThreeWay
  | long
  | floatLow
  | floatHigh
  | doubleLow
  | doubleHigh
deriving Repr, DecidableEq

/-- How a called method is found. -/
inductive CallKind
  | virtual
  | special
  | static
  | interface
deriving Repr, DecidableEq

/-- A field or method of a class, by the names that identify it. -/
structure Member where
  owner : String
  name : String
  descriptor : String
deriving Repr, DecidableEq

/-- Constructors have a reserved name. -/
def Member.isConstructor (m : Member) : Bool := m.name == "<init>"

end Decompiler
