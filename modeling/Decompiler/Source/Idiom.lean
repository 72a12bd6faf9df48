import Decompiler.Source.Expr.Basic

/-!
# Idioms of compilers

Two shapes that compilers write for one construct of the source language:

* a chain of appends to a fresh string builder, for a concatenation;
* a table indexed by the ordinal of an enum value, for a switch on the value.
-/

namespace Decompiler.Expr

/-- Whether a class builds strings by appending. -/
def buildsStrings (type : String) : Bool :=
  type == "java/lang/StringBuilder" || type == "java/lang/StringBuffer"

/-- Whether a value is known to be a string. -/
def isString : Expr → Bool
  | string _ => true
  | e => e.descriptor? == some stringType

/-- The text that a builder starts with: a conversion to a string around a
value that is a string already is left out. -/
def seed : Expr → Expr
  | callStatic method [arg] =>
    if method.owner == "java/lang/String" && method.name == "valueOf" &&
      arg.isString then arg
    else callStatic method [arg]
  | e => e

/-- The texts that a chain of appends to a fresh builder puts together, in
order.  A construction from an int sets a capacity and starts no chain. -/
def appended? : Expr → Option (List Expr)
  | callInstance _ receiver method [arg] =>
    if method.name == "append" && buildsStrings method.owner then
      receiver.appended?.map (· ++ [arg])
    else none
  | construct type _ [] => if buildsStrings type then some [] else none
  | construct type descriptor [arg] =>
    if buildsStrings type && descriptor != "(I)V" then some [arg.seed] else none
  | _ => none

/-- The concatenation that a finished chain of appends stands for. -/
def concatenation? : Expr → Option Expr
  | callInstance _ receiver method [] =>
    if method.name == "toString" && buildsStrings method.owner then
      receiver.appended?.map concat
    else none
  | _ => none

/-- Whether a value is one of the tables that compilers make to number the
constants of an enum. -/
def isOrdinalTable : Expr → Bool
  | callStatic method [] =>
    "$SWITCH_TABLE$".toList.isPrefixOf method.name.toList
  | staticField field => "$SwitchMap$".toList.isPrefixOf field.name.toList
  | _ => false

/-- The enum value, and the enum, behind a selector that is looked up by
ordinal. -/
def enumSelector? : Expr → Option (Expr × String)
  | element array (callInstance _ receiver method []) _ =>
    if array.isOrdinalTable && method.name == "ordinal" then
      some (receiver, method.owner)
    else none
  | _ => none

end Decompiler.Expr
