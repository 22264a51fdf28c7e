import ArithTree.Decimal.Shortest

namespace ArithTree

namespace Binary64

-- Positional form serves the magnitudes from `10 ^ -4` up to `10 ^ 16`.
def isPositional (x : Binary64) : Bool :=
  decide (10 ^ x.places ≤ x.window.value * 10 ^ 4 ∧ x.window.value < 10 ^ (x.places + 16))

-- The text of a magnitude that is no NaN. Zero has no shortest decimal.
def magnitudeNumeral (x : Binary64) : List Char :=
  if x.isInfinite then ['i', 'n', 'f']
  else if x.isZero then ['0', '.', '0']
  else if x.isPositional then x.shortest.positional
  else x.shortest.scientific

-- The text of a number. All NaNs share one unsigned text, and a negative zero keeps
-- its sign.
def numeral (x : Binary64) : List Char :=
  if x.isNaN then ['N', 'a', 'N']
  else if x.isNegative then '-' :: x.magnitudeNumeral
  else x.magnitudeNumeral

end Binary64

end ArithTree
