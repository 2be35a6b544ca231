import Unguard.Number.Decimal

/-!
# Double-precision floats as bits

The 64 bits of a float are a sign and a code.  The code of a finite value is the place of its
magnitude among all magnitudes, so codes are ordered as the values are; `infinityCode` comes after the
finite ones and everything above it is not a number.

Every finite magnitude is `significand * 2 ^ exponent / 2 ^ 1074`.  `ofRatio` rounds a ratio to the
nearest magnitude, a tie to the even code, and `ofDecimal` does so for decimals of any size.
-/

namespace Unguard.Binary64

/-- The weight of one step of the exponent in a code. -/
def step : Nat :=
  Nat.pow 2 52

/-- The denominator of all finite magnitudes. -/
def unit : Nat :=
  Nat.pow 2 1074

/-- The code of infinity. -/
def infinityCode : Nat :=
  2047 * step

/-- The significand and the exponent of a finite code. -/
def decode (code : Nat) : Nat × Nat :=
  if code < step then (code, 0) else (code % step + step, code / step - 1)

/-- The magnitude of a finite code, in units of `1 / unit`. -/
def magnitude (code : Nat) : Nat :=
  let (significand, exponent) := decode code
  significand * Nat.pow 2 exponent

/-- The natural number nearest to `n / d`; of two the even one. -/
def roundDiv (n d : Nat) : Nat :=
  let quotient := n / d
  let rest := n % d
  if 2 * rest < d then quotient
  else if d < 2 * rest then quotient + 1
  else quotient + quotient % 2

/-- The code of the float nearest to `n / d`; of two the even one. -/
def ofRatio (n d : Nat) : Nat :=
  let scaled := n * unit
  let exponent := (scaled / d).log2 - 52
  min (exponent * step + roundDiv scaled (d * Nat.pow 2 exponent)) infinityCode

/-- The code of the float nearest to a decimal.  A decimal of 10 ^ 400 or more is past every finite
float, and one below 10 ^ -400 is nearest to zero, so no larger power of ten is ever formed. -/
def ofDecimal (d : Decimal) : Nat :=
  if d.coefficient = 0 then 0
  else if 400 < d.exponent then infinityCode
  else if d.exponent + (Nat.toDigits 10 d.coefficient).length < -400 then 0
  else match d.exponent with
    | .ofNat zeros => ofRatio (d.coefficient * Nat.pow 10 zeros) 1
    | .negSucc places => ofRatio d.coefficient (Nat.pow 10 (places + 1))

/-- The bits of a sign and a code. -/
def bits (negative : Bool) (code : Nat) : UInt64 :=
  (if negative then Nat.pow 2 63 + code else code).toUInt64

def isNegative (bits : UInt64) : Bool :=
  decide (Nat.pow 2 63 ≤ bits.toNat)

def code (bits : UInt64) : Nat :=
  bits.toNat % Nat.pow 2 63

end Unguard.Binary64
