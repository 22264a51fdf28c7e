import ArithTree.Power

namespace ArithTree

-- A double-precision number, kept as its 64-bit encoding: one sign bit, eleven exponent bits
-- and 52 fraction bits. Every bit counts here, so the two zeros and all NaNs stay apart.
structure Binary64 where
  bits : UInt64
  deriving DecidableEq

namespace Binary64

-- The encoding of positive infinity. Finite magnitudes lie below it and NaNs above.
def infBits : Nat := 2047 * 2 ^ 52

-- The encoding without its sign bit. It is the rank of the magnitude among all magnitudes.
def rank (x : Binary64) : Nat := x.bits.toNat % 2 ^ 63

def isNegative (x : Binary64) : Bool := decide (2 ^ 63 ≤ x.bits.toNat)

def isNaN (x : Binary64) : Bool := decide (infBits < x.rank)

def isInfinite (x : Binary64) : Bool := x.rank == infBits

def isFinite (x : Binary64) : Bool := decide (x.rank < infBits)

def isZero (x : Binary64) : Bool := x.rank == 0

-- A finite magnitude is `significand * 2 ^ scale` units of `2 ^ -1074`. The exponent fields
-- 0 and 1 share the scale 0: the first has no hidden bit and the second has one.
def scale (x : Binary64) : Nat := x.rank / 2 ^ 52 - 1

-- Below `2 ^ 52` for a subnormal number, else with the hidden bit and below `2 ^ 53`.
def significand (x : Binary64) : Nat := x.rank - x.scale * 2 ^ 52

-- The rank of a magnitude gives it back, with the sign put in front.
def ofRank (negative : Bool) (rank : Nat) : Binary64 :=
  ⟨UInt64.ofNat (if negative then 2 ^ 63 + rank else rank)⟩

def infinity (negative : Bool) : Binary64 := ofRank negative infBits

-- The quiet NaN without sign or payload.
def nan : Binary64 := ofRank false (infBits + 2 ^ 51)

-- Equality of numbers rather than of encodings: the two zeros are equal, and a NaN differs
-- from everything, itself included.
def numEq (x y : Binary64) : Bool :=
  !x.isNaN && !y.isNaN && (x == y || x.isZero && y.isZero)

-- The number `k * 2 ^ -53` for `k < 2 ^ 53`. With `k` of `log2 k + 1` bits, the exponent field
-- is `log2 k + 970` and shifting `k` up to 53 bits adds its leading bit to that field, so the
-- field is written one lower.
def ofUnitFraction (k : Nat) : Binary64 :=
  if k = 0 then ofRank false 0
  else ofRank false ((k.log2 + 969) * 2 ^ 52 + k * 2 ^ (52 - k.log2))

end Binary64

end ArithTree
