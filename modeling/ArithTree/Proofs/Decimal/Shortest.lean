import ArithTree.Proofs.Decimal.Coarsest
import Mathlib.Tactic.IntervalCases

namespace ArithTree

-- How many digits a decimal is written with.
def Decimal.length (d : Decimal) : ℕ := (Nat.toDigits 10 d.digits).length

namespace Binary64

variable {x : Binary64}

theorem window_low_pos (hzero : x.isZero = false) : 0 < x.window.low := by
  have hsig := x.significand_pos hzero
  apply Nat.mul_pos _ x.quarterPlace_pos
  split <;> omega

theorem window_high_le (hzero : x.isZero = false) : x.window.high ≤ 2 * x.window.value := by
  have hsig := x.significand_pos hzero
  simp only [window, ← Nat.mul_assoc]
  apply Nat.mul_le_mul_right
  omega

-- The search starts above the window's value, and no power of ten beyond is within its reach.
theorem finds_coarsest (hzero : x.isZero = false) :
    x.window.Finds (x.window.coarsest (Nat.toDigits 10 x.window.value).length).1
      (x.window.coarsest (Nat.toDigits 10 x.window.value).length).2 where
  contains := Window.contains_coarsest (contains_window_value hzero) _
  preferred _ := Window.preferred_coarsest (contains_window_value hzero)
  coarsest higher k h := by
    by_cases hle : higher ≤ (Nat.toDigits 10 x.window.value).length
    · exact Window.not_contains_of_coarsest_lt (contains_window_value hzero) h hle k
    · intro hk
      have hvalue : x.window.value < 10 ^ (Nat.toDigits 10 x.window.value).length :=
        (Nat.length_toDigits_le_iff (by decide) Nat.length_toDigits_pos).mp le_rfl
      have hpow : 10 ^ ((Nat.toDigits 10 x.window.value).length + 1) ≤ 10 ^ higher :=
        Nat.pow_le_pow_right (by decide) (Nat.lt_of_not_le hle)
      rw [← Window.spans_natCast] at hk
      have hlow : x.window.low ≤ k * 10 ^ higher := by exact_mod_cast hk.low_le
      have hhigh : k * 10 ^ higher ≤ x.window.high := by exact_mod_cast hk.le_high
      have hpos := (window_low_pos hzero).trans_le hlow
      have hstep := Nat.le_mul_of_pos_left (10 ^ higher) (Nat.pos_of_mul_pos_right hpos)
      have htwice := window_high_le hzero
      rw [Nat.pow_succ] at hpow
      omega

-- The quarter place of the lowest scale against a power of ten: a little less than `5 / 4` of it.
theorem five_pow_bounds : 19 * 10 ^ 752 ≤ 16 * 5 ^ 1076 ∧ 4 * 5 ^ 1076 ≤ 5 * 10 ^ 752 := by
  decide +kernel

-- Of the significands up to nine, only two has a power of ten right above it.
theorem mul_pow_le_of_quarters {significand power : ℕ} (hpos : 0 < significand)
    (hle : significand ≤ 9) (hlow : 4 * significand * 5 ^ 1076 < 10 ^ power)
    (hhigh : 10 ^ power ≤ (4 * significand + 2) * 5 ^ 1076) :
    19 * 10 ^ power ≤ 20 * (4 * significand * 5 ^ 1076) := by
  obtain ⟨hfive, hfive'⟩ := five_pow_bounds
  have hquarter (n : ℕ) : 0 < 5 ^ n := Nat.pow_pos (by decide)
  specialize hquarter 1076
  have hten (n : ℕ) : 10 ^ (n + 1) = 10 * 10 ^ n := Nat.pow_succ'
  -- the powers are too long to be computed with
  generalize 5 ^ 1076 = quarter at *
  generalize 752 = place at *
  have hpower : power = place + 1 := by
    have hlt : 10 ^ power < 10 ^ (place + 1 + 1) := by
      have hmul := Nat.mul_le_mul_right quarter (show 4 * significand + 2 ≤ 38 by omega)
      rw [hten, hten]
      omega
    have hgt : 10 ^ place < 10 ^ power := by
      have hmul := Nat.mul_le_mul_right quarter (show 4 ≤ 4 * significand by omega)
      omega
    have hlt' := (Nat.pow_lt_pow_iff_right (by decide)).mp hlt
    have hgt' := (Nat.pow_lt_pow_iff_right (by decide)).mp hgt
    omega
  subst hpower
  rw [hten] at hlow hhigh ⊢
  interval_cases significand <;> omega

theorem quarterPlace_of_scale_eq_zero (h : x.scale = 0) : x.quarterPlace = 5 ^ 1076 := by
  have hplace (n : ℕ) : 5 ^ (n - 0) * 2 ^ (0 - n) = 5 ^ n := by simp
  rw [quarterPlace, h]
  exact hplace 1076

theorem significand_le_of_window {n : ℕ} (hhigh : n ≤ x.window.high)
    (hlow : 10 * x.window.low ≤ 9 * n) : x.significand ≤ 9 := by
  have hreach : (4 * x.significand - 2) * x.quarterPlace ≤ x.window.low := by
    apply Nat.mul_le_mul_right
    split <;> omega
  have hmul : 10 * (4 * x.significand - 2) * x.quarterPlace ≤
      9 * (4 * x.significand + 2) * x.quarterPlace := by
    rw [Nat.mul_assoc, Nat.mul_assoc]
    exact (Nat.mul_le_mul_left 10 hreach).trans (hlow.trans (Nat.mul_le_mul_left 9 hhigh))
  have hle := Nat.le_of_mul_le_mul_right hmul x.quarterPlace_pos
  omega

-- A window that reaches so far around a power of ten belongs to one of the smallest numbers.
theorem roundsToPower_window (hzero : x.isZero = false) : x.window.RoundsToPower := by
  intro power hhigh hvalue hlow
  have hsmall := significand_le_of_window hhigh hlow
  have hscale : x.scale = 0 := by
    have hnorm := x.le_significand
    omega
  simp only [window, quarterPlace_of_scale_eq_zero hscale] at hhigh hvalue ⊢
  exact mul_pow_le_of_quarters (x.significand_pos hzero) hsmall hvalue hhigh

theorem magnitude_mul_places (x : Binary64) :
    x.magnitude * 10 ^ x.places = (x.window.value : ℚ) := by
  have hone : (unitsPerOne : ℚ) ≠ 0 := by exact_mod_cast unitsPerOne_pos.ne'
  have hvalue : (x.window.value * unitsPerOne : ℚ) = x.units * 10 ^ x.places := by
    exact_mod_cast x.window_value_mul
  rw [magnitude, div_mul_eq_mul_div, ← hvalue, mul_div_cancel_right₀ _ hone]

variable {d : Decimal}

theorem spans_of_isNearest (hfinite : x.isFinite) (hzero : x.isZero = false)
    (h : x.IsNearest d.value) : x.window.Spans (d.digits * 10 ^ (d.exponent + x.places)) := by
  rw [← d.value_mul_pow]
  exact (isNearest_iff_spans hfinite hzero).mp h

theorem exists_finds_shortest (hzero : x.isZero = false) :
    ∃ count power : ℕ, x.shortest = ⟨count, power - x.places⟩ ∧ x.window.Finds count power :=
  ⟨_, _, rfl, finds_coarsest hzero⟩

theorem not_dvd_digits_shortest (hzero : x.isZero = false) : ¬10 ∣ x.shortest.digits := by
  obtain ⟨count, power, hshortest, hfinds⟩ := exists_finds_shortest hzero
  rw [hshortest]
  exact hfinds.not_dvd

theorem length_shortest_le (hfinite : x.isFinite) (hzero : x.isZero = false)
    (h : x.IsNearest d.value) : x.shortest.length ≤ d.length := by
  obtain ⟨count, power, hshortest, hfinds⟩ := exists_finds_shortest hzero
  rw [hshortest]
  exact hfinds.length_le (spans_of_isNearest hfinite hzero h)

theorem preferred_shortest (hfinite : x.isFinite) (hzero : x.isZero = false)
    (h : x.IsNearest d.value) (hlength : d.length ≤ x.shortest.length) :
    Preferred x.magnitude x.shortest.value d.value := by
  obtain ⟨count, power, hshortest, hfinds⟩ := exists_finds_shortest hzero
  have hplaces : (0 : ℚ) < 10 ^ x.places := by positivity
  rw [hshortest] at hlength ⊢
  rw [← Preferred.mul_right_iff hplaces, magnitude_mul_places, Decimal.value_sub_mul,
    d.value_mul_pow]
  exact hfinds.preferred_of_length_le (roundsToPower_window hzero)
    (spans_of_isNearest hfinite hzero h) hlength

end Binary64

end ArithTree
