import ArithTree.Proofs.Decimal.Numeral

namespace ArithTree.Binary64

variable (x : Binary64)

-- The range of the positional form, on the exact magnitude.
theorem isPositional_iff :
    x.isPositional ↔ unitsPerOne ≤ x.units * 10 ^ 4 ∧ x.units < unitsPerOne * 10 ^ 16 := by
  have hvalue := x.window_value_mul
  have hone := unitsPerOne_pos
  have hplaces : 0 < 10 ^ x.places := Nat.pow_pos (by decide)
  have hlow : 10 ^ x.places ≤ x.window.value * 10 ^ 4 ↔ unitsPerOne ≤ x.units * 10 ^ 4 := by
    have hcross : x.window.value * 10 ^ 4 * unitsPerOne = x.units * 10 ^ 4 * 10 ^ x.places := by
      rw [Nat.mul_right_comm, hvalue, Nat.mul_right_comm]
    calc
      10 ^ x.places ≤ x.window.value * 10 ^ 4 ↔
          10 ^ x.places * unitsPerOne ≤ x.window.value * 10 ^ 4 * unitsPerOne :=
        (Nat.mul_le_mul_right_iff hone).symm
      _ ↔ unitsPerOne * 10 ^ x.places ≤ x.units * 10 ^ 4 * 10 ^ x.places := by
        rw [hcross, Nat.mul_comm unitsPerOne]
      _ ↔ unitsPerOne ≤ x.units * 10 ^ 4 := Nat.mul_le_mul_right_iff hplaces
  have hhigh : x.window.value < 10 ^ (x.places + 16) ↔ x.units < unitsPerOne * 10 ^ 16 := by
    have hcross : 10 ^ (x.places + 16) * unitsPerOne =
        unitsPerOne * 10 ^ 16 * 10 ^ x.places := by
      rw [Nat.pow_add]
      ring
    calc
      x.window.value < 10 ^ (x.places + 16) ↔
          x.window.value * unitsPerOne < 10 ^ (x.places + 16) * unitsPerOne :=
        (Nat.mul_lt_mul_right hone).symm
      _ ↔ x.units * 10 ^ x.places < unitsPerOne * 10 ^ 16 * 10 ^ x.places := by
        rw [hvalue, hcross]
      _ ↔ x.units < unitsPerOne * 10 ^ 16 := Nat.mul_lt_mul_right hplaces
  rw [isPositional, decide_eq_true_iff, hlow, hhigh]

theorem isPositional_iff_magnitude :
    x.isPositional ↔ 1 / 10 ^ 4 ≤ x.magnitude ∧ x.magnitude < 10 ^ 16 := by
  have hone : (0 : ℚ) < unitsPerOne := by exact_mod_cast unitsPerOne_pos
  rw [isPositional_iff, magnitude, div_le_div_iff₀ (by norm_num) hone, div_lt_iff₀ hone, one_mul,
    mul_comm _ (unitsPerOne : ℚ)]
  norm_cast

-- The text has an exponent exactly for small and for large magnitudes, zero and infinity apart.
theorem e_mem_numeral_iff_magnitude :
    'e' ∈ x.numeral ↔
      x.isFinite ∧ x.isZero = false ∧ (x.magnitude < 1 / 10 ^ 4 ∨ 10 ^ 16 ≤ x.magnitude) := by
  rw [e_mem_numeral_iff, ← Bool.not_eq_true x.isPositional, isPositional_iff_magnitude,
    not_and_or, not_le, not_lt]

-- The fraction's fields. Its significand has 53 bits.
theorem rank_ofUnitFraction {k : ℕ} (hk : 0 < k) (hlt : k < 2 ^ 53) :
    (ofUnitFraction k).rank = (k.log2 + 969) * 2 ^ 52 + k * 2 ^ (52 - k.log2) ∧
      2 ^ 52 ≤ k * 2 ^ (52 - k.log2) ∧ k * 2 ^ (52 - k.log2) < 2 ^ 53 := by
  have hlog : k.log2 < 53 := (Nat.log2_lt (by omega)).mpr hlt
  have hlow : 2 ^ 52 ≤ k * 2 ^ (52 - k.log2) := by
    calc
      2 ^ 52 = 2 ^ k.log2 * 2 ^ (52 - k.log2) := by
        rw [← Nat.pow_add, Nat.add_sub_of_le (by omega)]
      _ ≤ k * 2 ^ (52 - k.log2) := Nat.mul_le_mul_right _ (Nat.log2_self_le (by omega))
  have hhigh : k * 2 ^ (52 - k.log2) < 2 ^ 53 := by
    calc
      k * 2 ^ (52 - k.log2) < 2 ^ (k.log2 + 1) * 2 ^ (52 - k.log2) :=
        Nat.mul_lt_mul_of_pos_right Nat.lt_log2_self (Nat.two_pow_pos _)
      _ = 2 ^ 53 := by
        rw [← Nat.pow_add]
        congr 1
        omega
  refine ⟨?_, hlow, hhigh⟩
  rw [ofUnitFraction, if_neg (by omega), rank_ofRank]
  omega

theorem units_ofUnitFraction {k : ℕ} (hlt : k < 2 ^ 53) :
    (ofUnitFraction k).units * 2 ^ 53 = k * unitsPerOne := by
  by_cases hk : k = 0
  · subst hk
    have hrank : (ofUnitFraction 0).rank = 0 := rank_ofRank (by decide)
    simp [units_eq_unitsAt, hrank, unitsAt]
  · obtain ⟨hrank, hlow, hhigh⟩ := rank_ofUnitFraction (by omega) hlt
    have hlog : k.log2 < 53 := (Nat.log2_lt hk).mpr hlt
    have hscale : (ofUnitFraction k).scale = k.log2 + 969 := by
      rw [scale, hrank]
      omega
    have hsignificand : (ofUnitFraction k).significand = k * 2 ^ (52 - k.log2) := by
      rw [significand, hscale, hrank]
      omega
    have hpow : 2 ^ (52 - k.log2) * 2 ^ (k.log2 + 969) * 2 ^ 53 = unitsPerOne := by
      have hexponent : 52 - k.log2 + (k.log2 + 969) + 53 = 1074 := by omega
      rw [← Nat.pow_add, ← Nat.pow_add, hexponent, unitsPerOne_eq]
    rw [units, hscale, hsignificand, ← hpow]
    generalize 2 ^ (k.log2 + 969) = power
    ring

theorem isNegative_ofUnitFraction {k : ℕ} (hlt : k < 2 ^ 53) :
    (ofUnitFraction k).isNegative = false := by
  by_cases hk : k = 0
  · subst hk
    exact isNegative_ofRank (by decide)
  · obtain ⟨-, hlow, hhigh⟩ := rank_ofUnitFraction (by omega) hlt
    have hlog : k.log2 < 53 := (Nat.log2_lt hk).mpr hlt
    rw [ofUnitFraction, if_neg hk, isNegative_ofRank]
    omega

theorem isFinite_ofUnitFraction {k : ℕ} (hlt : k < 2 ^ 53) : (ofUnitFraction k).isFinite := by
  rw [isFinite_iff, infBits]
  by_cases hk : k = 0
  · subst hk
    have hrank : (ofUnitFraction 0).rank = 0 := rank_ofRank (by decide)
    omega
  · obtain ⟨hrank, hlow, hhigh⟩ := rank_ofUnitFraction (by omega) hlt
    have hlog : k.log2 < 53 := (Nat.log2_lt hk).mpr hlt
    omega

theorem isZero_ofUnitFraction {k : ℕ} (hlt : k < 2 ^ 53) :
    (ofUnitFraction k).isZero ↔ k = 0 := by
  rw [isZero_iff]
  constructor
  · intro hrank
    by_contra hk
    obtain ⟨hrank', hlow, -⟩ := rank_ofUnitFraction (Nat.pos_of_ne_zero hk) hlt
    omega
  · rintro rfl
    exact rank_ofRank (by decide)

theorem ofUnitFraction_inj {k k' : ℕ} (hlt : k < 2 ^ 53) (hlt' : k' < 2 ^ 53)
    (h : ofUnitFraction k = ofUnitFraction k') : k = k' := by
  have hunits := units_ofUnitFraction hlt
  rw [h, units_ofUnitFraction hlt'] at hunits
  exact (Nat.mul_right_cancel unitsPerOne_pos hunits).symm

-- A fraction of 53 bits has a plain text unless it lies below `10 ^ -4`.
theorem e_mem_numeral_ofUnitFraction {k : ℕ} (hlt : k < 2 ^ 53) :
    'e' ∈ (ofUnitFraction k).numeral ↔ 0 < k ∧ k < 900719925475 := by
  have hone := unitsPerOne_pos
  have hunits := units_ofUnitFraction hlt
  have hlow : unitsPerOne ≤ (ofUnitFraction k).units * 10 ^ 4 ↔ 2 ^ 53 ≤ k * 10 ^ 4 := by
    rw [← Nat.mul_le_mul_right_iff (Nat.two_pow_pos 53), Nat.mul_right_comm, hunits,
      Nat.mul_right_comm, Nat.mul_comm unitsPerOne, Nat.mul_le_mul_right_iff hone]
  have hhigh : (ofUnitFraction k).units < unitsPerOne * 10 ^ 16 := by
    rw [← Nat.mul_lt_mul_right (Nat.two_pow_pos 53), hunits, Nat.mul_comm k, Nat.mul_assoc]
    exact Nat.mul_lt_mul_of_pos_left (by omega) hone
  rw [e_mem_numeral_iff, ← Bool.not_eq_true, ← Bool.not_eq_true, isPositional_iff,
    isZero_ofUnitFraction hlt, hlow]
  simp only [isFinite_ofUnitFraction hlt, hhigh, true_and, and_true]
  omega

end ArithTree.Binary64
