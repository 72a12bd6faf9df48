import Decompiler.Numeric.Shortest

/-!
# Positional notation

Numbers written out in full, never with an exponent: the digits of the
shortest decimal, with a point where its power of ten asks for one and no
trailing zeros after it.
-/

namespace Decompiler.Numeric

/-- The digits of a decimal with its point set.  A power of ten appends
zeros; a negative power moves the point to the left, past leading zeros when
there are not enough digits. -/
def Decimal.positional (d : Decimal) : String :=
  let digits := Nat.toDigits 10 d.digits
  if 0 ≤ d.power then
    String.ofList (digits ++ List.replicate d.power.toNat '0')
  else
    let places := (-d.power).toNat
    let padded := List.replicate (places + 1 - digits.length) '0' ++ digits
    let whole := padded.length - places
    String.ofList (padded.take whole ++ '.' :: padded.drop whole)

/-- The written form of a floating-point word: `NaN`, `inf`, a zero, or the
shortest decimal, with a minus sign before all but NaN. -/
def Format.text (f : Format) (word : Nat) : String :=
  if f.isNaN word then "NaN"
  else
    let sign := if f.negative word then "-" else ""
    if f.isInfinite word then sign ++ "inf"
    else if f.isZero word then sign ++ "0"
    else sign ++ (f.shortest word).positional

end Decompiler.Numeric
