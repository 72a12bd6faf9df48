import Decompiler.Numeric.Binary

/-!
# Shortest decimals

The decimal of fewest digits that reads back as a given floating-point number.
A decimal reads back as the number when it lies in the number's interval: the
reals nearer to it than to its two neighbours in the format.  The search goes
through the grids of multiples of `10^k` from coarse to fine and stops at the
first grid with a point in the interval.  Only the two grid points around the
number itself need a look, because every grid point inside the interval has
one of these two between itself and the number.
-/

namespace Decompiler.Numeric

/-- The reals that read back as one number, as numerators over one common
denominator.  The ends belong to the interval when it is `closed`. -/
structure Interval where
  low : Nat
  value : Nat
  high : Nat
  denominator : Nat
  closed : Bool
deriving Repr, DecidableEq

/-- The decimal `digits * 10^power`. -/
structure Decimal where
  digits : Nat
  power : Int
deriving Repr, DecidableEq

/-- The interval of a finite nonzero word.  The neighbour below is half as far
away at the bottom of a binade.  A tie between two neighbours is read as the
one with an even mantissa, so the ends count exactly for even mantissas. -/
def Format.interval (f : Format) (word : Nat) : Interval :=
  let m := f.mantissa word
  let q := f.scale word - 2
  let up := Nat.pow 2 q.toNat
  let gap := if f.fraction word == 0 && f.exponent word > 1 then 1 else 2
  { low := (4 * m - gap) * up
    value := 4 * m * up
    high := (4 * m + 2) * up
    denominator := Nat.pow 2 (-q).toNat
    closed := m % 2 == 0 }

namespace Interval

/-- Whether `x / unit` lies in the interval whose numerators are stretched by
`stretch`. -/
def holds (iv : Interval) (stretch x : Nat) : Bool :=
  if iv.closed then iv.low * stretch ≤ x && x ≤ iv.high * stretch
  else iv.low * stretch < x && x < iv.high * stretch

/-- The multiple of `10^k` in the interval that is nearest to the value, if
there is one.  Of two equally near multiples it is the larger. -/
def onGrid (iv : Interval) (k : Int) : Option Nat :=
  let stretch := Nat.pow 10 (-k).toNat
  let unit := iv.denominator * Nat.pow 10 k.toNat
  let below := iv.value * stretch / unit
  let rest := iv.value * stretch % unit
  match iv.holds stretch (below * unit),
    iv.holds stretch ((below + 1) * unit) with
  | true, true => some (if 2 * rest < unit then below else below + 1)
  | true, false => some below
  | false, true => some (below + 1)
  | false, false => none

/-- The first grid with a point in the interval, looking at `steps` grids from
`10^k` downwards, and the last grid's floor if none has one. -/
def coarsest (iv : Interval) : (steps : Nat) → (k : Int) → Decimal
  | 0, k =>
    ⟨iv.value * Nat.pow 10 (-k).toNat / (iv.denominator * Nat.pow 10 k.toNat),
      k⟩
  | n + 1, k =>
    match iv.onGrid k with
    | some d => ⟨d, k⟩
    | none => iv.coarsest n (k - 1)

end Interval

/-- A power of ten above every number below `2^(e + 1)`: ten is more than the
cube and less than the fourth power of two. -/
def decimalCeiling (e : Int) : Int :=
  if 0 ≤ e then e / 3 + 2 else e / 4 + 2

/-- The shortest decimal of a finite nonzero word's magnitude. -/
def Format.shortest (f : Format) (word : Nat) : Decimal :=
  let top := (f.mantissa word).log2 + f.scale word
  (f.interval word).coarsest (top.natAbs + 24) (decimalCeiling top)

end Decompiler.Numeric
