import Decompiler.Bytecode.Signature
import Decompiler.Bytecode.Instr
import Decompiler.Bytecode.Local
import Decompiler.Numeric.Binary

/-!
# Expressions

The values that decompiled code computes, as trees.  This file holds the type,
the type descriptor of a value as far as it is known, equality of the values
two trees stand for, and the question whether a tree reads a local variable.
-/

namespace Decompiler

/-- An expression of the source language. -/
inductive Expr
  | null
  | int (value : Int32)
  | long (value : Int64)
  /-- A `float`, as its word. -/
  | float (word : UInt32)
  /-- A `double`, as its word. -/
  | double (word : UInt64)
  | string (text : String)
  /-- A class literal. -/
  | classLiteral (name : String)
  | var (var : Local)
  | staticField (field : Member)
  | instanceField (object : Expr) (field : Member)
  | element (array index : Expr) (kind : Kind)
  | length (array : Expr)
  | binary (op : ArithOp) (kind : Kind) (lhs rhs : Expr)
  | neg (kind : Kind) (operand : Expr)
  /-- A conversion of numbers or a checked cast to a field type. -/
  | cast (type : String) (value : Expr)
  | instanceOf (type : String) (value : Expr)
  /-- The three-way comparison of two numbers, useful only in a jump. -/
  | compare (how : ThreeWay) (lhs rhs : Expr)
  | callStatic (method : Member) (args : List Expr)
  | callInstance (how : CallKind) (receiver : Expr) (method : Member)
      (args : List Expr)
  | callDynamic (name descriptor : String) (args : List Expr)
  /-- An object made by a constructor with the given descriptor. -/
  | construct (type descriptor : String) (args : List Expr)
  /-- An object whose constructor has not been called. -/
  | uninitialized (type : String)
  | newArray (component : String) (size : Expr)
  /-- A new array with its first elements listed. -/
  | arrayLiteral (component : String) (size : Expr) (values : List Expr)
  | newMultiArray (descriptor : String) (dimensions : List Expr)
  /-- The concatenation of texts. -/
  | concat (parts : List Expr)
  /-- The exception that a handler starts with. -/
  | caught (type : Option String)
deriving Repr

namespace Expr

/-- The descriptor of strings. -/
def stringType : String := "Ljava/lang/String;"

/-- The best known field descriptor of a value. -/
def descriptor? : Expr → Option String
  | null => none
  | int _ | length _ | compare .. => some "I"
  | long _ => some "J"
  | float _ => some "F"
  | double _ => some "D"
  | string _ | concat _ => some stringType
  | classLiteral _ => some "Ljava/lang/Class;"
  | var v => v.descriptor
  | staticField field | instanceField _ field => some field.descriptor
  | element _ _ .reference => none
  | element _ _ kind | binary _ kind _ _ | neg kind _ => some kind.descriptor
  | cast type _ => some type
  | instanceOf .. => some "Z"
  | callStatic method _ | callInstance _ _ method _ =>
    (Signature.ofDescriptor? method.descriptor).map (·.result)
  | callDynamic _ descriptor _ =>
    (Signature.ofDescriptor? descriptor).map (·.result)
  | construct type _ _ | uninitialized type => some ("L" ++ type ++ ";")
  | newArray component _ | arrayLiteral component _ _ => some ("[" ++ component)
  | newMultiArray descriptor _ => some descriptor
  | caught type => some ("L" ++ type.getD "java/lang/Throwable" ++ ";")

/-- Whether a value is known to take two stack slots. -/
def isWide (e : Expr) : Bool := e.descriptor?.any FieldType.isWide

/-- Whether a value is known to be an integer and not a truth value. -/
def isIntegral (e : Expr) : Bool := e.descriptor?.any FieldType.isIntegral

/-- Whether a value is a call or a construction, and so worth computing when
nobody uses it. -/
def isCall : Expr → Bool
  | callStatic .. | callInstance .. | callDynamic .. | construct .. => true
  | _ => false

mutual

/-- Whether two expressions are built alike from equal constants.  A NaN is
equal to nothing and the two zeros are equal, so this is not identity. -/
def same : Expr → Expr → Bool
  | null, null => true
  | int a, int b => a == b
  | long a, long b => a == b
  | float a, float b => Numeric.Format.single.same a.toNat b.toNat
  | double a, double b => Numeric.Format.double.same a.toNat b.toNat
  | string a, string b => a == b
  | classLiteral a, classLiteral b => a == b
  | var a, var b => a == b
  | staticField f, staticField g => f == g
  | instanceField a f, instanceField b g => a.same b && f == g
  | element a i k, element b j l => a.same b && i.same j && k == l
  | length a, length b => a.same b
  | binary o k a b, binary p l c d => o == p && k == l && a.same c && b.same d
  | neg k a, neg l b => k == l && a.same b
  | cast s a, cast t b => s == t && a.same b
  | instanceOf s a, instanceOf t b => s == t && a.same b
  | compare h a b, compare i c d => h == i && a.same c && b.same d
  | callStatic m as, callStatic n bs => m == n && sameAll as bs
  | callInstance h r m as, callInstance i s n bs =>
    h == i && r.same s && m == n && sameAll as bs
  | callDynamic m d as, callDynamic n e bs => m == n && d == e && sameAll as bs
  | construct s d as, construct t e bs => s == t && d == e && sameAll as bs
  | uninitialized s, uninitialized t => s == t
  | newArray c a, newArray d b => c == d && a.same b
  | arrayLiteral c a as, arrayLiteral d b bs =>
    c == d && a.same b && sameAll as bs
  | newMultiArray d as, newMultiArray e bs => d == e && sameAll as bs
  | concat as, concat bs => sameAll as bs
  | caught s, caught t => s == t
  | _, _ => false

/-- Whether two lists of expressions are the same member by member. -/
def sameAll : List Expr → List Expr → Bool
  | [], [] => true
  | a :: as, b :: bs => a.same b && sameAll as bs
  | _, _ => false

end

mutual

/-- Whether an expression reads a local variable. -/
def mentions (v : Local) : Expr → Bool
  | var w => w == v
  | instanceField e _ | length e | neg _ e | cast _ e | instanceOf _
      e | newArray _ e =>
    e.mentions v
  | element a b _ | binary _ _ a b | compare _ a b =>
    a.mentions v || b.mentions v
  | callInstance _ receiver _ args => receiver.mentions v || mentionedIn v args
  | callStatic _ args | callDynamic _ _ args | construct _ _ args | concat args
  | newMultiArray _ args => mentionedIn v args
  | arrayLiteral _ size values => size.mentions v || mentionedIn v values
  | _ => false

/-- Whether some member of a list reads a local variable. -/
def mentionedIn (v : Local) : List Expr → Bool
  | [] => false
  | e :: es => e.mentions v || mentionedIn v es

end

end Expr

end Decompiler
