/-!
# Binary floating-point words

A binary floating-point number is kept as its word: one sign bit, then an
exponent field, then a fraction field.  This file reads such a word as sign
and magnitude `m * 2^q` with a natural number `m`, and compares two words the
way the numbers they stand for compare.
-/

namespace Decompiler.Numeric

/-- The widths of the two lower fields of a floating-point word. -/
structure Format where
  fractionBits : Nat
  exponentBits : Nat
deriving Repr, DecidableEq

namespace Format

/-- The 32-bit format. -/
def single : Format := ⟨23, 8⟩

/-- The 64-bit format. -/
def double : Format := ⟨52, 11⟩

/-- The exponent field of the number one. -/
def bias (f : Format) : Nat := Nat.pow 2 (f.exponentBits - 1) - 1

/-- The exponent field that is reserved for infinities and NaNs. -/
def topExponent (f : Format) : Nat := Nat.pow 2 f.exponentBits - 1

/-- The fraction field of a word. -/
def fraction (f : Format) (word : Nat) : Nat := word % Nat.pow 2 f.fractionBits

/-- The exponent field of a word. -/
def exponent (f : Format) (word : Nat) : Nat :=
  word / Nat.pow 2 f.fractionBits % Nat.pow 2 f.exponentBits

/-- The sign bit of a word. -/
def negative (f : Format) (word : Nat) : Bool :=
  word / Nat.pow 2 (f.fractionBits + f.exponentBits) % 2 == 1

/-- Whether the word is not a number. -/
def isNaN (f : Format) (word : Nat) : Bool :=
  f.exponent word == f.topExponent && f.fraction word != 0

/-- Whether the word is an infinity of either sign. -/
def isInfinite (f : Format) (word : Nat) : Bool :=
  f.exponent word == f.topExponent && f.fraction word == 0

/-- Whether the word is a zero of either sign. -/
def isZero (f : Format) (word : Nat) : Bool :=
  f.exponent word == 0 && f.fraction word == 0

/-- The `m` of the magnitude `m * 2^q`: the fraction with the leading one
that every number outside the lowest binade leaves unwritten. -/
def mantissa (f : Format) (word : Nat) : Nat :=
  if f.exponent word == 0 then f.fraction word
  else f.fraction word + Nat.pow 2 f.fractionBits

/-- The `q` of the magnitude `m * 2^q`.  The lowest two binades share it. -/
def scale (f : Format) (word : Nat) : Int :=
  (max (f.exponent word) 1 : Nat) - ((f.bias + f.fractionBits : Nat) : Int)

/-- Equality of the numbers two words stand for: NaN equals nothing, not even
itself, and the two zeros are equal. -/
def same (f : Format) (a b : Nat) : Bool :=
  !f.isNaN a && !f.isNaN b && (a == b || f.isZero a && f.isZero b)

end Format

end Decompiler.Numeric
