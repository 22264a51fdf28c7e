import ArithTree.Proofs.Binary64.Nearest
import ArithTree.Proofs.Decimal.Window
import Mathlib.Tactic.FieldSimp

namespace ArithTree

open Binary64 (magnitudeAt strictMono_magnitudeAt unitsAt unitsPerOne unitsPerOne_pos infBits)

namespace Decimal

variable (d : Decimal)

theorem value_eq_div : d.value = d.num / d.den := by
  have hden : (d.den : ℚ) ≠ 0 := by exact_mod_cast d.den_pos.ne'
  rw [eq_div_iff hden, value_mul_den]

-- A decimal and the middle between two numbers, as whole numbers.
theorem magnitudeAt_add_le_iff (r s : ℕ) :
    magnitudeAt r + magnitudeAt s ≤ 2 * d.value ↔
      (unitsAt r + unitsAt s) * d.den ≤ 2 * (unitsPerOne * d.num) := by
  have hone : (0 : ℚ) < unitsPerOne := by exact_mod_cast unitsPerOne_pos
  have hden : (0 : ℚ) < d.den := by exact_mod_cast d.den_pos
  rw [magnitudeAt, magnitudeAt, ← add_div, value_eq_div, ← mul_div_assoc,
    div_le_div_iff₀ hone hden, ← Nat.cast_le (α := ℚ)]
  push_cast
  rw [mul_assoc 2, mul_comm (d.num : ℚ)]

theorem le_magnitudeAt_add_iff (r s : ℕ) :
    2 * d.value ≤ magnitudeAt r + magnitudeAt s ↔
      2 * (unitsPerOne * d.num) ≤ (unitsAt r + unitsAt s) * d.den := by
  have hone : (0 : ℚ) < unitsPerOne := by exact_mod_cast unitsPerOne_pos
  have hden : (0 : ℚ) < d.den := by exact_mod_cast d.den_pos
  rw [magnitudeAt, magnitudeAt, ← add_div, value_eq_div, ← mul_div_assoc,
    div_le_div_iff₀ hden hone, ← Nat.cast_le (α := ℚ)]
  push_cast
  rw [mul_assoc 2, mul_comm (d.num : ℚ)]

theorem rank_nearest (negative : Bool) :
    (d.nearest negative).rank = min (nearestRank (unitsPerOne * d.num) d.den) infBits := by
  rw [nearest_eq_ofRank]
  apply Binary64.rank_ofRank
  unfold infBits
  omega

theorem isNegative_nearest (negative : Bool) : (d.nearest negative).isNegative = negative := by
  rw [nearest_eq_ofRank]
  apply Binary64.isNegative_ofRank
  unfold infBits
  omega

-- Rounding finds the nearest number. What would rank above infinity is nearest to infinity.
theorem isNearest_nearest (negative : Bool) : (d.nearest negative).IsNearest d.value := by
  obtain ⟨hhigh, hhighOdd⟩ := le_middle_succ_nearestRank (unitsPerOne * d.num) d.den_pos
  obtain ⟨hlow, hlowOdd⟩ := middle_pred_nearestRank_le (unitsPerOne * d.num) d.den_pos
  have hrank := d.rank_nearest negative
  have hparity := (d.nearest negative).rank_mod_two
  have hmagnitude := (d.nearest negative).magnitude_eq_magnitudeAt
  rw [← le_magnitudeAt_add_iff] at hhigh
  rw [← not_le, ← magnitudeAt_add_le_iff, not_le] at hhighOdd
  rw [← magnitudeAt_add_le_iff] at hlow
  rw [← not_le, ← le_magnitudeAt_add_iff, not_le] at hlowOdd
  generalize nearestRank (unitsPerOne * d.num) d.den = rank at *
  by_cases hle : rank ≤ infBits
  · rw [Nat.min_eq_left hle] at hrank
    have hnan := (d.nearest negative).isNaN_eq_false_iff.mpr (hrank.trans_le hle)
    rw [hrank] at hmagnitude hparity
    apply Binary64.isNearest_of_middles hnan
    · rw [hrank, hmagnitude, ← hparity]
      exact ⟨hlow, hlowOdd⟩
    · rw [hrank, hmagnitude, ← hparity]
      exact fun _ => ⟨hhigh, hhighOdd⟩
  · rw [Nat.min_eq_right (not_le.mp hle).le] at hrank
    have hnan := (d.nearest negative).isNaN_eq_false_iff.mpr hrank.le
    have heven : ¬(d.nearest negative).significand % 2 = 1 := by
      unfold infBits at hrank
      omega
    have hpred := strictMono_magnitudeAt.monotone (show infBits - 1 ≤ rank - 1 by omega)
    have hsame := strictMono_magnitudeAt.monotone (not_le.mp hle).le
    apply Binary64.isNearest_of_middles hnan
    · rw [hmagnitude, hrank]
      exact ⟨by linarith, fun hodd => absurd hodd heven⟩
    · intro hfinite
      rw [Binary64.isFinite_iff, hrank] at hfinite
      exact absurd hfinite (Nat.lt_irrefl _)

-- Rounding gives no other number than the one that is nearest and has the sign.
theorem nearest_eq_iff {d : Decimal} {negative : Bool} {x : Binary64} :
    d.nearest negative = x ↔ x.isNegative = negative ∧ x.IsNearest d.value := by
  constructor
  · rintro rfl
    exact ⟨d.isNegative_nearest negative, d.isNearest_nearest negative⟩
  · rintro ⟨hsign, hx⟩
    exact (d.isNearest_nearest negative).eq hx ((d.isNegative_nearest negative).trans hsign.symm)

end Decimal

namespace Binary64

variable {x : Binary64} {q : ℚ}

-- The middle between a number and the next lower one. The last place of the lower one is
-- half as wide if the number is a power of two.
theorem two_mul_unitsAt_pred_add_units (hzero : x.isZero = false) :
    2 * (unitsAt (x.rank - 1) + x.units) =
      (4 * x.significand - if x.significand = 2 ^ 52 ∧ 0 < x.scale then 1 else 2) * 2 ^ x.scale := by
  have hsig := x.significand_pos hzero
  have hlt := x.significand_lt
  have hnorm := x.le_significand
  have hrank := x.rank_eq
  by_cases hpower : x.significand = 2 ^ 52 ∧ 0 < x.scale
  · obtain ⟨hmin, hscale⟩ := hpower
    have hsucc := unitsAt_succ (x.rank - 1)
    have hlower : (x.rank - 1) / 2 ^ 52 - 1 = x.scale - 1 := by omega
    have hhalf : 2 ^ x.scale = 2 * 2 ^ (x.scale - 1) := by
      rw [← Nat.pow_succ', Nat.succ_eq_add_one, Nat.sub_add_cancel hscale]
    rw [Nat.sub_add_cancel (by omega), ← units_eq_unitsAt, hlower] at hsucc
    rw [if_pos ⟨hmin, hscale⟩]
    unfold units at hsucc ⊢
    rw [hmin, hhalf] at hsucc ⊢
    omega
  · have habove : 0 < x.scale → 2 ^ 52 < x.significand := by omega
    have hpred := unitsAt_pred hlt.le hsig habove
    obtain ⟨below, hbelow⟩ : ∃ below, x.significand = below + 1 := ⟨x.significand - 1, by omega⟩
    have hquarters : 4 * x.significand - 2 = 2 * (below + x.significand) := by omega
    rw [if_neg hpower, hrank, hpred, hquarters, units, hbelow, Nat.add_sub_cancel]
    ring

theorem two_mul_units_add_unitsAt_succ (x : Binary64) :
    2 * (x.units + unitsAt (x.rank + 1)) = (4 * x.significand + 2) * 2 ^ x.scale := by
  have hsucc := unitsAt_succ x.rank
  rw [← units_eq_unitsAt] at hsucc
  unfold units scale at hsucc ⊢
  rw [hsucc]
  ring

-- So many quarter places as a magnitude, both in units of `10 ^ -places`.
theorem two_mul_quarterPlaces {count total : ℕ} (h : 2 * total = count * 2 ^ x.scale) :
    2 * ((count * x.quarterPlace : ℕ) : ℚ) = total / unitsPerOne * 10 ^ x.places := by
  have hone : (unitsPerOne : ℚ) ≠ 0 := by exact_mod_cast unitsPerOne_pos.ne'
  have hquarter : (x.quarterPlace : ℚ) * (4 * unitsPerOne) = 10 ^ x.places * 2 ^ x.scale := by
    exact_mod_cast x.quarterPlace_mul
  have htotal : 2 * (total : ℚ) = count * 2 ^ x.scale := by exact_mod_cast h
  field_simp
  push_cast
  linear_combination (count : ℚ) / 2 * hquarter - (10 : ℚ) ^ x.places / 2 * htotal

-- The ends of the window lie in the middle between the number and its neighbours.
theorem two_mul_window_low (hzero : x.isZero = false) :
    2 * (x.window.low : ℚ) = (magnitudeAt (x.rank - 1) + x.magnitude) * 10 ^ x.places := by
  have hlow := two_mul_quarterPlaces (two_mul_unitsAt_pred_add_units hzero)
  rw [Nat.cast_add, add_div] at hlow
  exact hlow

theorem two_mul_window_high (x : Binary64) :
    2 * (x.window.high : ℚ) = (x.magnitude + magnitudeAt (x.rank + 1)) * 10 ^ x.places := by
  have hhigh := two_mul_quarterPlaces x.two_mul_units_add_unitsAt_succ
  rw [Nat.cast_add, add_div] at hhigh
  exact hhigh

-- The window of a number spans the reals to which the number is nearest.
theorem isNearest_iff_spans (hfinite : x.isFinite) (hzero : x.isZero = false) :
    x.IsNearest q ↔ x.window.Spans (q * 10 ^ x.places) := by
  have htwo : (0 : ℚ) < 2 := two_pos
  have hplaces : (0 : ℚ) < 10 ^ x.places := by positivity
  have hlow : (x.window.low : ℚ) =
      (magnitudeAt (x.rank - 1) + x.magnitude) / 2 * 10 ^ x.places := by
    linarith [two_mul_window_low hzero]
  have hhigh : (x.window.high : ℚ) =
      (x.magnitude + magnitudeAt (x.rank + 1)) / 2 * 10 ^ x.places := by
    linarith [x.two_mul_window_high]
  have hclosed : x.window.closed ↔ ¬x.significand % 2 = 1 := by
    simp [window]
  rw [isNearest_iff_middles hfinite hzero, Window.Spans, hlow, hhigh]
  simp only [mul_le_mul_iff_left₀ hplaces, mul_lt_mul_iff_left₀ hplaces, div_le_iff₀' htwo,
    le_div_iff₀' htwo, div_lt_iff₀' htwo, lt_div_iff₀' htwo]
  by_cases hodd : x.significand % 2 = 1
  · rw [if_neg (hclosed.not.mpr (not_not.mpr hodd))]
    constructor
    · rintro ⟨⟨-, hopenLow⟩, -, hopenHigh⟩
      exact ⟨hopenLow hodd, hopenHigh hodd⟩
    · rintro ⟨hlow, hhigh⟩
      exact ⟨⟨hlow.le, fun _ => hlow⟩, hhigh.le, fun _ => hhigh⟩
  · rw [if_pos (hclosed.mpr hodd)]
    simp [hodd]

end Binary64

end ArithTree
