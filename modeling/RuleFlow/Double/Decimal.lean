import RuleFlow.Double.Basic

/-! # Decimal digits of doubles

Two ways from a double to decimal digits, both in exact integer arithmetic: `shortest` finds the
fewest digits that still name the double, `Double.roundTo` the value rounded to a number of places.
`Decimal.positional` and `Decimal.scientific` write digits down. -/

namespace RuleFlow

/-- The number `digits * 10 ^ exponent`. -/
structure Decimal where
  digits : Nat
  exponent : Int
deriving DecidableEq, Repr

/-- Which of two equally near decimals is taken. -/
inductive Tie where
  | even
  | upper
deriving DecidableEq, Repr

namespace Double

/-- The reals that round to a positive double, as `low, middle, high` in units of
`2 ^ (exponent - 2)`. Below a power of two the doubles lie twice as dense. -/
def neighbourhood (x : Double) : Nat × Nat × Nat :=
  let m := 4 * x.significand
  let below := if x.fraction = 0 ∧ 1 < x.biasedExponent then 1 else 2
  (m - below, m, m + 2)

/-- The double's best neighbour on the grid of multiples of `10 ^ k`, if one of the two rounds back
to the double. The ends of the neighbourhood do so for an even significand. -/
def onGrid? (tie : Tie) (x : Double) (k : Int) : Option Decimal :=
  let (low, middle, high) := x.neighbourhood
  let e := x.exponent - 2
  let scale := 2 ^ e.toNat * 10 ^ (-k).toNat
  let step := 2 ^ (-e).toNat * 10 ^ k.toNat
  let inside (d : Nat) : Bool :=
    if x.significand % 2 = 0 then low * scale ≤ d * step && d * step ≤ high * scale
    else low * scale < d * step && d * step < high * scale
  let d := middle * scale / step
  let rest := 2 * (middle * scale % step)
  let upper := step < rest || (rest == step && (tie == .upper || d % 2 == 1))
  if inside d && !(upper && inside (d + 1)) then some ⟨d, k⟩
  else if inside (d + 1) then some ⟨d + 1, k⟩
  else none

/-- Tries grids from coarse to fine. -/
def searchGrids (tie : Tie) (x : Double) : Nat → Int → Decimal
  | 0, k => ⟨0, k⟩
  | n + 1, k => (x.onGrid? tie k).getD (x.searchGrids tie n (k - 1))

/-- The fewest digits that round to a positive finite double, and the nearest of those. The search
starts on a grid above the double's leading digit, and seventeen digits always suffice. -/
def shortest (tie : Tie) (x : Double) : Decimal :=
  let top := ((x.significand.log2 : Int) + x.exponent) * 30103 / 100000 + 2
  x.searchGrids tie 24 top

/-- The size of a finite double in units of `10 ^ -places`, rounded to nearest, ties to even. -/
def roundTo (places : Nat) (x : Double) : Nat :=
  let scaled := x.significand * 10 ^ places * 2 ^ x.exponent.toNat
  let unit := 2 ^ (-x.exponent).toNat
  let low := scaled / unit
  let rest := 2 * (scaled % unit)
  if unit < rest || (rest == unit && low % 2 == 1) then low + 1 else low

end Double

/-! ## Writing -/

/-- The decimal digits of a natural number. -/
def digitsOf (n : Nat) : List Char := Nat.toDigits 10 n

/-- A count as text. -/
def countText (n : Nat) : List Char := digitsOf n

/-- An integer as text. -/
def integerText (i : Int) : List Char :=
  if i < 0 then '-' :: digitsOf i.natAbs else digitsOf i.natAbs

namespace Decimal

/-- Digits with the point in its place; a whole number has no point. -/
def positional (d : Decimal) : List Char :=
  let ds := digitsOf d.digits
  if 0 ≤ d.exponent then ds ++ List.replicate d.exponent.toNat '0'
  else
    let places := (-d.exponent).toNat
    let padded := List.replicate (places + 1 - ds.length) '0' ++ ds
    padded.take (padded.length - places) ++ '.' :: padded.drop (padded.length - places)

/-- The power of ten of the leading digit. -/
def magnitude (d : Decimal) : Int := d.exponent + ((digitsOf d.digits).length - 1 : Nat)

/-- One digit, the others after a point, and the power of ten with its sign. -/
def scientific (d : Decimal) : List Char :=
  let e := d.magnitude
  let power := 'e' :: (if e < 0 then '-' else '+') :: digitsOf e.natAbs
  match digitsOf d.digits with
  | [] => power
  | [c] => c :: power
  | c :: cs => c :: '.' :: cs ++ power

end Decimal

namespace Double

private def signed (x : Double) (size : List Char) : List Char :=
  if x.isNegative then '-' :: size else size

/-- Text of a double that is not finite. -/
private def special (x : Double) : List Char :=
  if x.isNaN then ['N', 'a', 'N'] else x.signed ['i', 'n', 'f']

/-- A double for people: the fewest digits, never a power of ten. -/
def displayText (x : Double) : List Char :=
  if !x.isFinite then x.special
  else x.signed (if x.isZero then ['0'] else (x.shortest .upper).positional)

/-- A double with a fixed number of places. -/
def fixedText (places : Nat) (x : Double) : List Char :=
  if !x.isFinite then x.special
  else x.signed (Decimal.positional ⟨x.roundTo places, -places⟩)

/-- A finite double in a data file: the fewest digits, with a point and at least one place when the
leading digit stands between `10 ^ -5` and `10 ^ 15`, else with a signed power of ten. -/
def dataText (x : Double) : List Char :=
  x.signed <|
    if x.isZero then ['0', '.', '0']
    else
      let d := x.shortest .even
      if d.magnitude < -5 || 15 < d.magnitude then d.scientific
      else if 0 ≤ d.exponent then d.positional ++ ['.', '0']
      else d.positional

end Double

end RuleFlow
