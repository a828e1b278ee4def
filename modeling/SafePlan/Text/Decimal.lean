/-
# SafePlan.Text.Decimal — numbers in decimal

A finite binary number is `mantissa · 2 ^ exponent`, and the numbers that
round to it lie between the midpoints to its two neighbours. Its decimal text
is the point nearest to it on the coarsest decimal grid with a point in that
interval: no shorter text reads back, and no text of that length is nearer.

A grid has a point in the interval exactly when it has one next to the number,
so only the two points around it are tried, in exact integer arithmetic.

The text is positional whatever the size of the number, with no exponent, and
a whole number has no point.
-/
set_option autoImplicit false

namespace SafePlan.Text

def twoTo (n : Nat) : Nat := Nat.pow 2 n

def tenTo (n : Nat) : Nat := Nat.pow 10 n

/-- A positive binary number. The neighbour below is half as far as the one
above where the mantissa is the least of its exponent. -/
structure Binary where
  mantissa : Nat
  exponent : Int
  leastOfExponent : Bool
  deriving DecidableEq, Repr

namespace Binary

/-- Quarters of the last place, over a common denominator: the number, the
midpoint below, the midpoint above, and the denominator. -/
structure Interval where
  value : Nat
  low : Nat
  high : Nat
  denominator : Nat
  /-- Whether the midpoints themselves round to the number. -/
  closed : Bool

def interval (b : Binary) : Interval :=
  let quarters := b.exponent - 2
  let scale := twoTo quarters.toNat
  let middle := 4 * b.mantissa
  { value := middle * scale
    low := (middle - if b.leastOfExponent then 1 else 2) * scale
    high := (middle + 2) * scale
    denominator := twoTo (-quarters).toNat
    closed := b.mantissa % 2 == 0 }

end Binary

/-- `digits · 10 ^ exponent`. -/
structure Decimal where
  digits : Nat
  exponent : Int
  deriving DecidableEq, Repr

namespace Decimal

/-- Of the two points of a grid around a number, the one in its interval; of
two in it the nearer, and of two equally near the upper. -/
def onGrid? (interval : Binary.Interval) (exponent : Int) : Option Decimal :=
  let coarse := tenTo exponent.toNat * interval.denominator
  let fine := tenTo (-exponent).toNat
  let below := interval.value * fine / coarse
  let above := below + 1
  let fitsBelow :=
    if interval.closed then interval.low * fine ≤ below * coarse
    else interval.low * fine < below * coarse
  let fitsAbove :=
    if interval.closed then above * coarse ≤ interval.high * fine
    else above * coarse < interval.high * fine
  let aboveNearer := above * coarse - interval.value * fine ≤ interval.value * fine - below * coarse
  if fitsAbove ∧ (aboveNearer ∨ ¬ fitsBelow) then some ⟨above, exponent⟩
  else if fitsBelow then some ⟨below, exponent⟩
  else none

/-- The exponents of grids for binary numbers of 64 bits, from coarse to fine:
all are below `10 ^ 309`, and none needs a place beyond `10 ^ -324`. -/
def exponents : List Int := (List.range 634).map fun (step : Nat) => 309 - (step : Int)

/-- The nearest point on the coarsest grid that has one in the interval. -/
def shortest (b : Binary) : Decimal :=
  (exponents.findSome? (onGrid? b.interval)).getD ⟨0, 0⟩

def zeros (count : Nat) : String := String.ofList (List.replicate count '0')

/-- All places written out. -/
def positional (d : Decimal) : String :=
  if 0 ≤ d.exponent then toString d.digits ++ zeros d.exponent.toNat
  else
    let places := (-d.exponent).toNat
    let fraction := toString (d.digits % tenTo places)
    toString (d.digits / tenTo places) ++ "." ++ zeros (places - fraction.length) ++ fraction

end Decimal

/-- The text of a binary number of 64 bits. -/
def decimal (p : Float) : String :=
  let bits : Nat := p.toBits.toNat
  let sign := if bits / twoTo 63 = 1 then "-" else ""
  let exponent : Nat := bits / twoTo 52 % twoTo 11
  let fraction : Nat := bits % twoTo 52
  if exponent = 2047 then
    if fraction = 0 then sign ++ "inf" else "NaN"
  else if exponent = 0 then
    if fraction = 0 then sign ++ "0"
    else sign ++ (Decimal.shortest ⟨fraction, -1074, false⟩).positional
  else
    sign ++ (Decimal.shortest ⟨twoTo 52 + fraction, exponent - 1075, fraction == 0⟩).positional

end SafePlan.Text
