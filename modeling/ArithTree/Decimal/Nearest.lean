import ArithTree.Binary64
import ArithTree.Decimal.Basic

namespace ArithTree

-- The whole number nearest to `num / den`, and the even one of two equally near.
def roundHalfEven (num den : Nat) : Nat :=
  let quotient := num / den
  let remainder := num % den
  if 2 * remainder < den ∨ (2 * remainder = den ∧ quotient % 2 = 0) then quotient
  else quotient + 1

namespace Decimal

-- The number nearest to a decimal, with ties to the even significand. In units of
-- `2 ^ -1074` the decimal is a fraction, and the scale leaves 53 bits of it before
-- the point. A significand that rounds up to `2 ^ 53` carries into the next rank by itself,
-- and what would rank above infinity is infinite.
def nearest (negative : Bool) (d : Decimal) : Binary64 :=
  let num := d.digits * 10 ^ d.exponent.toNat * 2 ^ 1074
  let den := 10 ^ (-d.exponent).toNat
  let scale := (num / den).log2 - 52
  let rank := scale * 2 ^ 52 + roundHalfEven num (den * 2 ^ scale)
  Binary64.ofRank negative (min rank Binary64.infBits)

end Decimal

end ArithTree
