/-! # Doubles as bit patterns

A number is kept as its 64 bits, so that two doubles are equal exactly when their bits are. What the
bits stand for is worked out in exact integer arithmetic: a finite double is
`± significand * 2 ^ exponent`. Comparison as numbers (`agrees`, `lt`) and the total order of bit
patterns (`orderKey`) are two further views of the same bits. -/

namespace RuleFlow

-- Powers of numbers are the same whether or not more instances are imported.
attribute [instance (2000), default_instance (20000)] instPowNat

/-- A double, named by its bits. -/
structure Double where
  bits : UInt64
deriving DecidableEq, Repr, Inhabited

namespace Double

/-! ## Fields -/

/-- The 52 low bits. -/
def fraction (x : Double) : Nat := x.bits.toNat % 2 ^ 52

/-- The 11 bits above the fraction. -/
def biasedExponent (x : Double) : Nat := x.bits.toNat / 2 ^ 52 % 2 ^ 11

/-- All bits but the sign. -/
def magnitudeBits (x : Double) : Nat := x.bits.toNat % 2 ^ 63

/-- The sign bit; negative zero and some NaNs carry it too. -/
def isNegative (x : Double) : Bool := 2 ^ 63 ≤ x.bits.toNat

def isFinite (x : Double) : Bool := x.biasedExponent != 2047

def isNaN (x : Double) : Bool := !x.isFinite && x.fraction != 0

def isZero (x : Double) : Bool := x.magnitudeBits == 0

/-- The whole number `m` in `m * 2 ^ e`, for a finite double. -/
def significand (x : Double) : Nat :=
  if x.biasedExponent = 0 then x.fraction else 2 ^ 52 + x.fraction

/-- The exponent `e` in `m * 2 ^ e`, for a finite double. -/
def exponent (x : Double) : Int := (max x.biasedExponent 1 : Nat) - 1075

/-! ## Rounding -/

/-- The bits of infinity, above those of all finite doubles. -/
def infinityBits : Nat := 2047 * 2 ^ 52

/-- The double with a sign and with these bits below it; too many make infinity. -/
def ofMagnitude (negative : Bool) (magnitude : Nat) : Double :=
  ⟨UInt64.ofNat ((if negative then 2 ^ 63 else 0) + Min.min magnitude infinityBits)⟩

/-- The power of two of the last place in the double nearest to a ratio. -/
def ratioExponent (num den : Nat) : Int :=
  let estimate := (num.log2 : Int) - den.log2
  let lead :=
    if den * 2 ^ estimate.toNat ≤ num * 2 ^ (-estimate).toNat then estimate else estimate - 1
  Max.max (lead - 52) (-1074)

/-- A ratio of whole numbers rounded to a whole number, ties to even. -/
def roundRatio (num den : Nat) : Nat :=
  let low := num / den
  let rest := 2 * (num % den)
  if den < rest || (rest == den && low % 2 == 1) then low + 1 else low

/-- The double nearest to a ratio of whole numbers; of two equally near the one with the even
significand. -/
def ofRatio (negative : Bool) (num den : Nat) : Double :=
  if num = 0 then ofMagnitude negative 0
  else
    let e := ratioExponent num den
    -- a significand of 53 bits carries into the exponent by its leading bit
    ofMagnitude negative
      ((e + 1074).toNat * 2 ^ 52 + roundRatio (num * 2 ^ (-e).toNat) (den * 2 ^ e.toNat))

/-! ## Whole numbers -/

/-- The size of a finite double, rounded towards zero. -/
def wholePart (x : Double) : Nat :=
  if 0 ≤ x.exponent then x.significand * 2 ^ x.exponent.toNat
  else x.significand / 2 ^ (-x.exponent).toNat

/-- A finite double without a fractional part. -/
def isWhole (x : Double) : Bool :=
  x.isFinite && (0 ≤ x.exponent || x.significand % 2 ^ (-x.exponent).toNat == 0)

/-- A finite double rounded towards zero. -/
def truncate (x : Double) : Int := if x.isNegative then -x.wholePart else x.wholePart

/-- A whole double that a signed 64-bit integer can hold with its sign changed as well. -/
def isSmallWhole (x : Double) : Bool := x.isWhole && x.wholePart < 2 ^ 63

def zero : Double := ⟨0⟩

/-- The double nearest to a natural number. -/
def ofNat (n : Nat) : Double := ofRatio false n 1

def neg (x : Double) : Double := ⟨x.bits ^^^ 0x8000000000000000⟩

/-- The double nearest to an integer. -/
def ofInt (i : Int) : Double := if i < 0 then (ofNat i.natAbs).neg else ofNat i.natAbs

/-! ## Comparison -/

/-- Place of the bit pattern in the total order: negative NaNs, negative numbers, zeros with the
negative one first, positive numbers, positive NaNs. -/
def orderKey (x : Double) : Int :=
  if x.isNegative then -(x.magnitudeBits : Int) - 1 else x.magnitudeBits

/-- Place of a double that is not NaN among the numbers; the two zeros share one. -/
def numberKey (x : Double) : Int :=
  if x.isNegative then -(x.magnitudeBits : Int) else x.magnitudeBits

/-- Equality of numbers: the zeros agree, and NaN agrees with nothing. -/
def agrees (x y : Double) : Bool := !x.isNaN && !y.isNaN && x.numberKey == y.numberKey

/-- Order of numbers: NaN is neither below nor above anything. -/
def lt (x y : Double) : Bool := !x.isNaN && !y.isNaN && x.numberKey < y.numberKey

/-- The larger of two doubles, the second if they agree. A NaN gives way to the other, and of two
the first stays. -/
def max (x y : Double) : Double := if y.isNaN then x else if y.lt x then x else y

/-- The smaller of two doubles, the second if they agree. A NaN gives way to the other, and of two
the first stays. -/
def min (x y : Double) : Double := if y.isNaN then x else if x.lt y then x else y

/-! ## Arithmetic

Every operation works its result out exactly, as a ratio of whole numbers, and rounds it once. -/

def isInfinite (x : Double) : Bool := !x.isFinite && x.fraction == 0

/-- What an operation without a result gives. -/
def undefined : Double := ⟨0xfff8000000000000⟩

/-- Passes a NaN among the operands on, the first one before the second. -/
def combine (op : Double → Double → Double) (x y : Double) : Double :=
  if x.isNaN then ⟨x.bits ||| 0x0008000000000000⟩
  else if y.isNaN then ⟨y.bits ||| 0x0008000000000000⟩
  else op x y

/-- The sum; zero is negative only as the sum of two negative zeros. -/
def add : Double → Double → Double := combine fun x y =>
  if x.isInfinite then
    if y.isInfinite && x.isNegative != y.isNegative then undefined else x
  else if y.isInfinite then y
  else
    let e := Min.min x.exponent y.exponent
    let part (z : Double) : Int :=
      let size : Int := z.significand * 2 ^ (z.exponent - e).toNat
      if z.isNegative then -size else size
    let sum := part x + part y
    let negative := if sum = 0 then x.isNegative && y.isNegative else sum < 0
    ofRatio negative (sum.natAbs * 2 ^ e.toNat) (2 ^ (-e).toNat)

def sub : Double → Double → Double := combine fun x y => x.add y.neg

def mul : Double → Double → Double := combine fun x y =>
  let negative := x.isNegative != y.isNegative
  if x.isInfinite || y.isInfinite then
    if x.isZero || y.isZero then undefined else ofMagnitude negative infinityBits
  else
    let e := x.exponent + y.exponent
    ofRatio negative (x.significand * y.significand * 2 ^ e.toNat) (2 ^ (-e).toNat)

def div : Double → Double → Double := combine fun x y =>
  let negative := x.isNegative != y.isNegative
  if x.isInfinite then if y.isInfinite then undefined else ofMagnitude negative infinityBits
  else if y.isInfinite then ofMagnitude negative 0
  else if y.isZero then if x.isZero then undefined else ofMagnitude negative infinityBits
  else
    let e := x.exponent - y.exponent
    ofRatio negative (x.significand * 2 ^ e.toNat) (y.significand * 2 ^ (-e).toNat)

end Double

end RuleFlow
