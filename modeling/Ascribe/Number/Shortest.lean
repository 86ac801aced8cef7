/-!
# Shortest decimals

A binary floating point number stands for every real number that rounds to it.
Among the decimals in that range one with the fewest digits is chosen, and among
those the one nearest to the number itself; when two are equally near, the larger
one is taken.

All quantities are fractions over one denominator, so every comparison is exact.
-/

namespace Ascribe.Number

/-- A positive number with the range of the reals that round to it, as fractions over
one denominator.  In a closed range the two ends round to the number too. -/
structure Rounding where
  value : Nat
  low : Nat
  high : Nat
  den : Nat
  closed : Bool

/-- The decimal `digits * 10 ^ exponent`. -/
structure Decimal where
  digits : Nat
  exponent : Int
  deriving Inhabited

/-- Compare a decimal with a fraction. -/
def Decimal.compareTo (d : Decimal) (num den : Nat) : Ordering :=
  compare (d.digits * Nat.pow 10 d.exponent.toNat * den) (num * Nat.pow 10 (-d.exponent).toNat)

namespace Rounding

/-- Whether a decimal lies in the range that rounds to the number. -/
def contains (r : Rounding) (d : Decimal) : Bool :=
  let fromLow := d.compareTo r.low r.den
  let fromHigh := d.compareTo r.high r.den
  (fromLow == .gt || (r.closed && fromLow == .eq)) &&
    (fromHigh == .lt || (r.closed && fromHigh == .eq))

/-- Far below the least positive number of the format, as a count of decimal places. -/
def places : Nat :=
  400

/-- How many digits the number has before the decimal point.  It is not positive for a
number below one tenth. -/
def magnitude (r : Rounding) : Int :=
  ((Nat.toDigits 10 (r.value * Nat.pow 10 places / r.den)).length : Int) - places

/-- The digits of the number before the place `exponent`, the rest cut off. -/
def digitsDownTo (r : Rounding) (exponent : Int) : Nat :=
  (r.value * Nat.pow 10 (-exponent).toNat) / (r.den * Nat.pow 10 exponent.toNat)

/-- Whether the number is nearer to `digits` than to `digits + 1` at the place
`exponent`. -/
def nearerBelow (r : Rounding) (digits : Nat) (exponent : Int) : Bool :=
  Decimal.compareTo ⟨2 * digits + 1, exponent⟩ (2 * r.value) r.den == .gt

/-- The decimal in the range among the two neighbours of the number at a place. -/
def neighbour? (r : Rounding) (exponent : Int) : Option Decimal :=
  let below := r.digitsDownTo exponent
  let down := r.contains ⟨below, exponent⟩
  let up := r.contains ⟨below + 1, exponent⟩
  if down && (!up || r.nearerBelow below exponent) then some ⟨below, exponent⟩
  else if up then some ⟨below + 1, exponent⟩
  else none

/-- The most digits that a number of the format needs. -/
def maxDigits : Nat :=
  17

/-- The shortest decimal of at most `left` further digits, the next place being
`exponent`. -/
def search (r : Rounding) : (left : Nat) → (exponent : Int) → Decimal
  | 0, exponent => ⟨r.digitsDownTo (exponent + 1), exponent + 1⟩
  | left + 1, exponent =>
      match r.neighbour? exponent with
      | some d => d
      | none => search r left (exponent - 1)

/-- A decimal with the fewest digits that rounds to the number. -/
def shortest (r : Rounding) : Decimal :=
  r.search maxDigits (r.magnitude - 1)

end Rounding

namespace Decimal

/-- The digits as characters, without the zeros at the end. -/
def significant (d : Decimal) : List Char :=
  ((Nat.toDigits 10 d.digits).reverse.dropWhile (· == '0')).reverse

/-- The power of ten of the first digit. -/
def leading (d : Decimal) : Int :=
  d.exponent + (Nat.toDigits 10 d.digits).length - 1

end Decimal

end Ascribe.Number
