/-!
# Field types

The type of a field, a variable or an array element is written as a letter for
a primitive type, as `L` and a class name closed by a semicolon, or as a
bracket and the type of the elements for an array.  This file finds such types
at the front of a text, classifies them, and spells them as source code does.
-/

namespace Decompiler.FieldType

/-- The letters of the primitive types. -/
def primitives : List Char := ['B', 'C', 'D', 'F', 'I', 'J', 'S', 'Z']

/-- The field type at the front of a text, and the text after it.  A class
name runs to the first semicolon and is not empty. -/
def read? : List Char → Option (List Char × List Char)
  | [] => none
  | '[' :: cs => (read? cs).map fun (type, rest) => ('[' :: type, rest)
  | 'L' :: cs =>
    match cs.takeWhile (· != ';'), cs.dropWhile (· != ';') with
    | c :: name, _ :: rest => some ('L' :: c :: name ++ [';'], rest)
    | _, _ => none
  | c :: cs => if c ∈ primitives then some ([c], cs) else none

/-- Splits a text into at most `fuel` field types that use it up. -/
def readAll? : (fuel : Nat) → List Char → Option (List (List Char))
  | _, [] => some []
  | 0, _ :: _ => none
  | n + 1, cs =>
    match read? cs with
    | none => none
    | some (type, rest) => (readAll? n rest).map (type :: ·)

/-- Whether a text is exactly one field type. -/
def isType (cs : List Char) : Bool :=
  match read? cs with
  | some (_, []) => true
  | _ => false

/-- Whether a value of the type takes two stack slots. -/
def isWide (type : String) : Bool := type == "J" || type == "D"

/-- Whether the type is one of the integer types that a jump compares with
zero, and not a truth value. -/
def isIntegral (type : String) : Bool :=
  type == "I" || type == "B" || type == "S" || type == "C"

/-- The class name inside a class type; every other text is left alone. -/
def stripClass : List Char → List Char
  | 'L' :: cs => if cs.getLast? == some ';' then cs.dropLast else 'L' :: cs
  | cs => cs

/-- The class name inside a class type; every other text is left alone. -/
def className (type : String) : String := String.ofList (stripClass type.toList)

/-- A type as source code spells it: a bracket pair for each array dimension
after the name, primitives by keyword, and a class name with dots. -/
def spell : List Char → List Char
  | '[' :: cs => spell cs ++ ['[', ']']
  | ['B'] => "byte".toList
  | ['C'] => "char".toList
  | ['D'] => "double".toList
  | ['F'] => "float".toList
  | ['I'] => "int".toList
  | ['J'] => "long".toList
  | ['S'] => "short".toList
  | ['Z'] => "boolean".toList
  | ['V'] => "void".toList
  | cs => (stripClass cs).map fun c => if c = '/' then '.' else c

/-- A type as source code spells it. -/
def spelling (type : String) : String := String.ofList (spell type.toList)

/-- The last segment of a class name with slashes. -/
def lastSegment (name : String) : String :=
  String.ofList (name.toList.reverse.takeWhile (· != '/')).reverse

/-- The type of the instances of a class.  The name of an array class is a
type already. -/
def ofClass (name : String) : String :=
  match name.toList with
  | '[' :: _ => name
  | _ => "L" ++ name ++ ";"

/-- What is left of a type without its first `n` array dimensions, or without
all of them if it has fewer. -/
def element : (n : Nat) → List Char → List Char
  | n + 1, '[' :: cs => element n cs
  | _, cs => cs

/-- A type that is read is the front of the text. -/
theorem append_of_read? {cs type rest : List Char}
    (h : read? cs = some (type, rest)) : type ++ rest = cs := by
  induction cs generalizing type with
  | nil => simp [read?] at h
  | cons c cs ih =>
    unfold read? at h
    split at h
    · cases h
    · rename_i cs' heq
      obtain ⟨rfl, rfl⟩ := List.cons.inj heq
      obtain ⟨⟨inner, after⟩, hinner, heq⟩ := Option.map_eq_some_iff.1 h
      obtain ⟨rfl, rfl⟩ := Prod.mk.inj heq
      simp [ih hinner]
    · rename_i cs' heq
      obtain ⟨rfl, rfl⟩ := List.cons.inj heq
      have split := List.takeWhile_append_dropWhile (p := (· != ';')) (l := cs)
      split at h
      · rename_i d name semicolon after hname hafter
        obtain ⟨rfl, rfl⟩ := Prod.mk.inj (Option.some.inj h)
        have hsemi : semicolon = ';' := by
          have := List.head?_dropWhile_not (p := (· != ';')) (l := cs)
          simpa [hafter] using this
        rw [hname, hafter, hsemi] at split
        simpa using split
      · cases h
    · rename_i d cs' _ _ heq
      obtain ⟨rfl, rfl⟩ := List.cons.inj heq
      split at h
      · obtain ⟨rfl, rfl⟩ := Prod.mk.inj (Option.some.inj h)
        rfl
      · cases h

end Decompiler.FieldType
