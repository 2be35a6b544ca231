/-!
# Decimals

A decimal is a natural number times a power of ten.  `Decimal.positional` writes it with a point and
without an exponent: at least one digit stands on each side of the point, and no zero ends the
fraction unless it is the only digit there.  `Decimal.ofDigits` is the reading of such a text.
-/

namespace Unguard

/-- The number `coefficient * 10 ^ exponent`. -/
structure Decimal where
  coefficient : Nat
  exponent : Int
deriving DecidableEq, Repr, Inhabited

namespace Decimal

/-- The value of a digit. -/
def digitValue (c : Char) : Nat :=
  c.toNat - '0'.toNat

/-- The number that a sequence of digits denotes. -/
def ofDigitList (digits : List Char) : Nat :=
  digits.foldl (fun n c => n * 10 + digitValue c) 0

/-- The decimal written `whole.fraction` times ten to the `exponent`. -/
def ofDigits (whole fraction : List Char) (exponent : Int) : Decimal :=
  ⟨ofDigitList (whole ++ fraction), exponent - fraction.length⟩

/-- Drops the zeros at the end of a fraction, and keeps one digit. -/
def trimFraction (fraction : List Char) : List Char :=
  match (fraction.reverse.dropWhile (· = '0')).reverse with
  | [] => ['0']
  | digits => digits

/-- The digits before and after the point. -/
def digits (d : Decimal) : List Char × List Char :=
  let digits := Nat.toDigits 10 d.coefficient
  match d.exponent with
  | .ofNat zeros => (digits ++ List.replicate zeros '0', [])
  | .negSucc places =>
    let padded := List.replicate (places + 2 - digits.length) '0' ++ digits
    padded.splitAt (padded.length - (places + 1))

/-- The text of a decimal with a point and without an exponent. -/
def positional (d : Decimal) : String :=
  let (whole, fraction) := d.digits
  String.ofList (whole ++ '.' :: trimFraction fraction)

end Decimal

end Unguard
