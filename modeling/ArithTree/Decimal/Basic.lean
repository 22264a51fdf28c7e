import ArithTree.Power

namespace ArithTree

-- The magnitude `digits * 10 ^ exponent`.
structure Decimal where
  digits : Nat
  exponent : Int
  deriving DecidableEq

namespace Decimal

-- A whole number in base ten, with a sign only when it is negative.
def ofInt (n : Int) : List Char :=
  if n < 0 then '-' :: Nat.toDigits 10 n.natAbs else Nat.toDigits 10 n.natAbs

-- How many digits stand before the decimal point, counting leading zeros after the point
-- as negative.
def pointPosition (d : Decimal) : Int :=
  (Nat.toDigits 10 d.digits).length + d.exponent

-- Positional form. A digit stands on both sides of the point, as zeros fill the places
-- that the digits leave empty.
def positional (d : Decimal) : List Char :=
  let digits := Nat.toDigits 10 d.digits
  let before := d.pointPosition.toNat
  if d.pointPosition ≤ 0 then
    '0' :: '.' :: (List.replicate (-d.pointPosition).toNat '0' ++ digits)
  else if before < digits.length then
    digits.take before ++ '.' :: digits.drop before
  else
    digits ++ List.replicate (before - digits.length) '0' ++ ['.', '0']

-- Scientific form: the first digit, the other digits behind a point if there are any, and
-- the exponent without a plus sign.
def scientific (d : Decimal) : List Char :=
  let digits := Nat.toDigits 10 d.digits
  let mantissa := if digits.length = 1 then digits else digits.take 1 ++ '.' :: digits.drop 1
  mantissa ++ 'e' :: ofInt (d.pointPosition - 1)

end Decimal

end ArithTree
