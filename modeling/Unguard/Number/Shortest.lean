import Unguard.Number.Binary64

/-!
# The shortest decimal of a float

A float is written with the fewest digits that read back as the same float, and among the decimals of
that length the one nearest to it.  For each length the two neighbours of the value on the grid of
that length are tried by reading them back, so what is written always reads back; if both do, the
nearer one is taken, and the upper one when they are equally near.
-/

namespace Unguard.Binary64

/-- The number of digits before the point of the magnitude `n / unit`; for magnitudes below one, less
the number of zeros after it. -/
def pointPosition (n : Nat) : Int :=
  let estimate : Int := (Nat.toDigits 10 n).length - (Nat.toDigits 10 unit).length
  let reached := match estimate with
    | .ofNat k => decide (unit * Nat.pow 10 k ≤ n)
    | .negSucc k => decide (unit ≤ n * Nat.pow 10 (k + 1))
  if reached then estimate + 1 else estimate

/-- The quotient and the rest of the magnitude `n / unit` on the grid of step `10 ^ exponent`, and the
number the rest is out of. -/
def onGrid (n : Nat) (exponent : Int) : Nat × Nat × Nat :=
  match exponent with
  | .ofNat k => (n / (unit * Nat.pow 10 k), n % (unit * Nat.pow 10 k), unit * Nat.pow 10 k)
  | .negSucc k => (n * Nat.pow 10 (k + 1) / unit, n * Nat.pow 10 (k + 1) % unit, unit)

/-- The better neighbour of the value of `code` on a grid, if one of them reads back. -/
def neighbour? (code : Nat) (exponent : Int) : Option Decimal :=
  let (quotient, rest, out) := onGrid (magnitude code) exponent
  let below : Decimal := ⟨quotient, exponent⟩
  let above : Decimal := ⟨quotient + 1, exponent⟩
  if ofDecimal below = code then
    if ofDecimal above = code then
      some (if 2 * rest < out then below else above)
    else some below
  else if ofDecimal above = code then some above
  else none

/-- All digits of a finite value. -/
def exact (code : Nat) : Decimal :=
  ⟨magnitude code * Nat.pow 5 1074, -1074⟩

/-- The shortest decimal that reads back as a finite code.  Seventeen digits always do. -/
def shortest (code : Nat) : Decimal :=
  let point := pointPosition (magnitude code)
  ((List.range 17).findSome? fun (k : Nat) => neighbour? code (point - (k + 1))).getD (exact code)

/-- The text of a float.  Finite values have a point and no exponent. -/
def text (bits : UInt64) : String :=
  let sign := if isNegative bits then "-" else ""
  let code := code bits
  if code < infinityCode then
    sign ++ (if code = 0 then ⟨0, 0⟩ else shortest code : Decimal).positional
  else if code = infinityCode then sign ++ "inf"
  else "NaN"

end Unguard.Binary64
