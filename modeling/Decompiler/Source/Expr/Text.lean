import Decompiler.Numeric.Positional
import Decompiler.Source.Expr.Basic

/-!
# The written form of expressions

Binary operations and casts stand in parentheses, so operands need none of
their own.  Types are spelled as in source code, and constants of the larger
and the floating-point types carry their suffix letter.
-/

namespace Decompiler.Expr

/-- The arguments of a call. -/
def argumentList (args : List String) : String :=
  "(" ++ ", ".intercalate args ++ ")"

mutual

/-- The written form of an expression. -/
def text : Expr → String
  | null => "null"
  | int v => toString v.toInt
  | long v => toString v.toInt ++ "L"
  | float w => Numeric.Format.single.text w.toNat ++ "F"
  | double w => Numeric.Format.double.text w.toNat ++ "D"
  | string s => Text.quoted s
  | classLiteral name => FieldType.spelling name ++ ".class"
  | var v => v.name
  | staticField field => FieldType.lastSegment field.owner ++ "." ++ field.name
  | instanceField object field => object.text ++ "." ++ field.name
  | element array index _ => array.text ++ "[" ++ index.text ++ "]"
  | length array => array.text ++ ".length"
  | binary op _ lhs rhs =>
    "(" ++ lhs.text ++ " " ++ op.symbol ++ " " ++ rhs.text ++ ")"
  | neg _ operand => "-" ++ operand.text
  | cast type value =>
    "((" ++ FieldType.spelling type ++ ") " ++ value.text ++ ")"
  | instanceOf type value =>
    value.text ++ " instanceof " ++ FieldType.spelling type
  | compare _ lhs rhs => "compare(" ++ lhs.text ++ ", " ++ rhs.text ++ ")"
  | callStatic method args =>
    FieldType.lastSegment method.owner ++ "." ++ method.name ++
      argumentList (texts args)
  | callInstance _ receiver method args =>
    receiver.text ++ "." ++ method.name ++ argumentList (texts args)
  | callDynamic name _ args => name ++ argumentList (texts args)
  | construct type _ args =>
    "new " ++ FieldType.spelling type ++ argumentList (texts args)
  | uninitialized type => "new " ++ FieldType.spelling type
  | newArray component size =>
    "new " ++ FieldType.spelling component ++ "[" ++ size.text ++ "]"
  | arrayLiteral component _ values =>
    "new " ++ FieldType.spelling component ++ "[] \x7b" ++
      ", ".intercalate (texts values) ++ "\x7d"
  | newMultiArray descriptor dimensions =>
    let component := FieldType.element dimensions.length descriptor.toList
    "new " ++ String.ofList (FieldType.spell component)
      ++ String.join ((texts dimensions).map fun d => "[" ++ d ++ "]")
  | concat parts => " + ".intercalate (texts parts)
  | caught _ => "<caught>"

/-- The written forms of a list of expressions. -/
def texts : List Expr → List String
  | [] => []
  | e :: es => e.text :: texts es

end

end Decompiler.Expr
