import ArithTree.Binary64
import ArithTree.Decimal.Basic

namespace ArithTree

-- The reals that round to one number, with the number itself, all in units of one power
-- of ten. The end points belong to the window exactly when it is closed.
structure Window where
  low : Nat
  value : Nat
  high : Nat
  closed : Bool

namespace Window

def contains (w : Window) (n : Nat) : Bool :=
  if w.closed then decide (w.low ≤ n ∧ n ≤ w.high) else decide (w.low < n ∧ n < w.high)

-- The multiple of `step` in the window that lies nearest to the value, as a count of steps.
-- Only the two neighbours of the value need a test, since any other multiple lies behind
-- one of them. Of two equally near ones the larger wins.
def nearestMultiple? (w : Window) (step : Nat) : Option Nat :=
  let below := w.value / step
  let above := below + 1
  match w.contains (below * step), w.contains (above * step) with
  | true, true => if w.value - below * step < above * step - w.value then below else above
  | true, false => below
  | false, true => above
  | false, false => none

-- The coarsest grid of powers of ten with a point in the window, from `10 ^ power` downwards:
-- the nearest such point in grid steps, and the exponent of the step. On the finest grid
-- the value itself is a point.
def coarsest (w : Window) : Nat → Nat × Nat
  | 0 => (w.value, 0)
  | power + 1 =>
    match w.nearestMultiple? (10 ^ (power + 1)) with
    | some count => (count, power + 1)
    | none => w.coarsest power

end Window

namespace Binary64

-- How many decimal places suffice to write the number and the ends of its window exactly.
def places (x : Binary64) : Nat := 1076 - x.scale

-- A quarter of the number's last binary place, `2 ^ (scale - 1076)`, in units of
-- `10 ^ -places`.
def quarterPlace (x : Binary64) : Nat := 5 ^ (1076 - x.scale) * 2 ^ (x.scale - 1076)

-- The window reaches half a place to both sides, but only a quarter below a power of two
-- where the spacing changes. Ties between neighbours go to the even significand.
def window (x : Binary64) : Window where
  low :=
    (4 * x.significand - if x.significand = 2 ^ 52 ∧ 0 < x.scale then 1 else 2) * x.quarterPlace
  value := 4 * x.significand * x.quarterPlace
  high := (4 * x.significand + 2) * x.quarterPlace
  closed := x.significand % 2 == 0

-- The shortest decimal that reads back as the magnitude of a finite nonzero number, and the
-- nearest to it of those. A coarser grid means fewer digits, so the search starts at
-- a power of ten above the value.
def shortest (x : Binary64) : Decimal :=
  let found := x.window.coarsest (Nat.toDigits 10 x.window.value).length
  ⟨found.1, (found.2 : Int) - x.places⟩

end Binary64

end ArithTree
