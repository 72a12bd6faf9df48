import Decompiler.Bytecode.FieldType
import Decompiler.Fault

/-!
# Signatures

The types of a method are written as its parameter types between parentheses
and its result type, `V` for none.
-/

namespace Decompiler

/-- The types of a method. -/
structure Signature where
  parameters : List String
  result : String
deriving Repr, DecidableEq

namespace Signature

/-- Whether the method returns nothing. -/
def isVoid (s : Signature) : Bool := s.result == "V"

/-- Reads the types of a method.  The parameters end at the first closing
parenthesis. -/
def read? : List Char → Option Signature
  | '(' :: cs =>
    let inside := cs.takeWhile (· != ')')
    match FieldType.readAll? inside.length inside, cs.dropWhile (· != ')') with
    | some types, _ :: result =>
      if result = ['V'] ∨ FieldType.isType result then
        some ⟨types.map String.ofList, String.ofList result⟩
      else none
    | _, _ => none
  | _ => none

/-- Reads the types of a method. -/
def ofDescriptor? (descriptor : String) : Option Signature :=
  read? descriptor.toList

/-- Reads the types of a method, or reports the text that does not give any. -/
def ofDescriptor (descriptor : String) : Except Fault Signature :=
  match ofDescriptor? descriptor with
  | some s => .ok s
  | none => .error (.invalidDescriptor descriptor)

end Signature

end Decompiler
