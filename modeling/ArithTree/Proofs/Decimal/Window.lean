import ArithTree.Decimal.Numeral
import ArithTree.Proofs.Binary64.Units
import ArithTree.Proofs.Decimal.Rounding
import Mathlib.Algebra.Order.Field.Basic
import Mathlib.Data.Rat.Cast.Order
import Mathlib.Tactic.LinearCombination
import Mathlib.Tactic.Positivity

namespace ArithTree

open Binary64 (unitsPerOne unitsPerOne_pos)

namespace Decimal

variable (d : Decimal)

-- The magnitude that a decimal writes.
def value : ℚ := d.digits * 10 ^ d.exponent

-- The same as a fraction, in the form in which it is rounded.
def num : ℕ := d.digits * 10 ^ d.exponent.toNat

def den : ℕ := 10 ^ (-d.exponent).toNat

theorem den_pos : 0 < d.den := Nat.pow_pos (by decide)

theorem value_mul_pow (places : ℕ) :
    d.value * 10 ^ places = d.digits * 10 ^ (d.exponent + places) := by
  rw [value, zpow_add₀ (by norm_num), zpow_natCast, mul_assoc]

theorem value_mul_den : d.value * d.den = d.num := by
  have hsplit : d.exponent + ((-d.exponent).toNat : ℤ) = d.exponent.toNat := by omega
  simp only [num, den]
  push_cast
  rw [value_mul_pow, hsplit, zpow_natCast]

theorem value_sub_mul (digits power places : ℕ) :
    value ⟨digits, (power : ℤ) - places⟩ * 10 ^ places = ((digits * 10 ^ power : ℕ) : ℚ) := by
  push_cast
  rw [value_mul_pow, sub_add_cancel, zpow_natCast]

theorem nearest_eq_ofRank (negative : Bool) :
    nearest negative d =
      Binary64.ofRank negative
        (min (nearestRank (unitsPerOne * d.num) d.den) Binary64.infBits) := by
  rw [Nat.mul_comm, Binary64.unitsPerOne_eq]
  rfl

end Decimal

-- A window among the rationals.
def Window.Spans (w : Window) (q : ℚ) : Prop :=
  if w.closed then w.low ≤ q ∧ q ≤ w.high else w.low < q ∧ q < w.high

theorem Window.spans_natCast {w : Window} {n : ℕ} : w.Spans n ↔ w.contains n := by
  simp only [Spans, contains]
  split <;> simp

namespace Binary64

variable (x : Binary64)

theorem five_pow_mul (places scale : ℕ) :
    5 ^ (places - scale) * 2 ^ (scale - places) * 2 ^ places =
      10 ^ (places - scale) * 2 ^ scale := by
  have hten : (10 : ℕ) ^ (places - scale) = 5 ^ (places - scale) * 2 ^ (places - scale) := by
    rw [← Nat.mul_pow]
  have htwo : 2 ^ (scale - places) * 2 ^ places = 2 ^ (places - scale) * 2 ^ scale := by
    rw [← Nat.pow_add, ← Nat.pow_add]
    congr 1
    omega
  rw [Nat.mul_assoc, htwo, hten, Nat.mul_assoc]

theorem quarterPlace_mul : x.quarterPlace * (4 * unitsPerOne) = 10 ^ x.places * 2 ^ x.scale := by
  rw [four_mul_unitsPerOne]
  exact five_pow_mul 1076 x.scale

theorem quarterPlace_pos : 0 < x.quarterPlace :=
  Nat.mul_pos (Nat.pow_pos (by decide)) (Nat.two_pow_pos _)

-- The number in units of `10 ^ -places` and in units of `2 ^ -1074`.
theorem window_value_mul : x.window.value * unitsPerOne = x.units * 10 ^ x.places := by
  simp only [window, units]
  calc
    4 * x.significand * x.quarterPlace * unitsPerOne =
        x.significand * (x.quarterPlace * (4 * unitsPerOne)) := by ring
    _ = x.significand * 2 ^ x.scale * 10 ^ x.places := by rw [x.quarterPlace_mul]; ring

end Binary64

end ArithTree
