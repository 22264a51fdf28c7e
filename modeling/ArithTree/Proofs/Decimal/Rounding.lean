import ArithTree.Decimal.Nearest
import ArithTree.Proofs.Binary64.Units
import Mathlib.Tactic.Linarith
import Mathlib.Tactic.Ring

namespace ArithTree

open Binary64 (unitsAt unitsAt_of_significand le_unitsAt_succ unitsAt_pred strictMono_unitsAt)

-- Rounding moves a fraction by at most a half, and by exactly a half only to an even number.
theorem roundHalfEven_bounds (num : ℕ) {den : ℕ} (hden : 0 < den) :
    let q := roundHalfEven num den
    (2 * q * den ≤ 2 * num + den ∧ 2 * num ≤ (2 * q + 1) * den) ∧
      (q % 2 = 1 → 2 * q * den < 2 * num + den ∧ 2 * num < (2 * q + 1) * den) := by
  have hdivMod := Nat.div_add_mod num den
  have hmod := Nat.mod_lt num hden
  simp only [roundHalfEven]
  generalize num / den = quotient at *
  generalize num % den = remainder at *
  split
  · have hexpand : 2 * quotient * den = 2 * (den * quotient) := by ring
    rw [Nat.add_mul, hexpand]
    omega
  · have hexpand : 2 * (quotient + 1) * den = 2 * (den * quotient) + 2 * den := by ring
    rw [Nat.add_mul, hexpand]
    omega

theorem roundHalfEven_le {num den n : ℕ} (hden : 0 < den) (h : num ≤ n * den) :
    roundHalfEven num den ≤ n := by
  obtain ⟨⟨hlow, -⟩, -⟩ := roundHalfEven_bounds num hden
  have hmul : 2 * roundHalfEven num den * den ≤ (2 * n + 1) * den := by linarith
  have hle := Nat.le_of_mul_le_mul_right hmul hden
  omega

theorem le_roundHalfEven {num den n : ℕ} (hden : 0 < den) (h : n * den ≤ num) :
    n ≤ roundHalfEven num den := by
  obtain ⟨⟨-, hhigh⟩, -⟩ := roundHalfEven_bounds num hden
  have hmul : 2 * n * den ≤ (2 * roundHalfEven num den + 1) * den := by linarith
  have hle := Nat.le_of_mul_le_mul_right hmul hden
  omega

-- The place at which a fraction is rounded leaves 53 bits before the point, and fewer only
-- if it is the lowest one.
def lastPlace (num den : ℕ) : ℕ := (num / den).log2 - 52

theorem lt_mul_lastPlace (num : ℕ) {den : ℕ} (hden : 0 < den) :
    num < 2 ^ 53 * (den * 2 ^ lastPlace num den) := by
  have hlog : num / den < 2 ^ ((num / den).log2 + 1) := Nat.lt_log2_self
  have hpow : 2 ^ ((num / den).log2 + 1) ≤ 2 ^ (53 + lastPlace num den) := by
    apply Nat.pow_le_pow_right two_pos
    unfold lastPlace
    omega
  have hlt := (Nat.div_lt_iff_lt_mul hden).mp (hlog.trans_le hpow)
  rw [Nat.pow_add] at hlt
  linarith

theorem mul_lastPlace_le {num den : ℕ} (hden : 0 < den) (h : 0 < lastPlace num den) :
    2 ^ 52 * (den * 2 ^ lastPlace num den) ≤ num := by
  have hne : num / den ≠ 0 := by
    intro hzero
    simp [lastPlace, hzero] at h
  have hlog : 2 ^ (52 + lastPlace num den) ≤ num / den := by
    apply le_trans _ (Nat.log2_self_le hne)
    apply Nat.pow_le_pow_right two_pos
    unfold lastPlace at h ⊢
    omega
  have hle := (Nat.le_div_iff_mul_le hden).mp hlog
  rw [Nat.pow_add] at hle
  linarith

-- The rank that a fraction rounds to, as the rounding of a decimal computes it.
def nearestRank (num den : ℕ) : ℕ :=
  ((num / den).log2 - 52) * 2 ^ 52 + roundHalfEven num (den * 2 ^ ((num / den).log2 - 52))

-- Rounding at the place leaves a significand of 53 bits, or `2 ^ 53` itself.
theorem exists_nearestRank_eq (num : ℕ) {den : ℕ} (hden : 0 < den) :
    ∃ scale significand, nearestRank num den = scale * 2 ^ 52 + significand ∧
      significand = roundHalfEven num (den * 2 ^ scale) ∧ significand ≤ 2 ^ 53 ∧
      (0 < scale → 2 ^ 52 * (den * 2 ^ scale) ≤ num ∧ 2 ^ 52 ≤ significand) := by
  have hstep : 0 < den * 2 ^ lastPlace num den := Nat.mul_pos hden (Nat.two_pow_pos _)
  refine ⟨lastPlace num den, _, rfl, rfl, ?_, fun hscale => ?_⟩
  · exact roundHalfEven_le hstep (lt_mul_lastPlace num hden).le
  · have hle := mul_lastPlace_le hden hscale
    exact ⟨hle, le_roundHalfEven hstep hle⟩

-- A fraction is not above the middle between its rank and the next one, and not on it if the
-- rank is odd.
theorem le_middle_succ_nearestRank (num : ℕ) {den : ℕ} (hden : 0 < den) :
    2 * num ≤ (unitsAt (nearestRank num den) + unitsAt (nearestRank num den + 1)) * den ∧
      (nearestRank num den % 2 = 1 →
        2 * num < (unitsAt (nearestRank num den) + unitsAt (nearestRank num den + 1)) * den) := by
  obtain ⟨scale, significand, hrank, hround, hle, hnorm⟩ := exists_nearestRank_eq num hden
  have hstep : 0 < den * 2 ^ scale := Nat.mul_pos hden (Nat.two_pow_pos _)
  obtain ⟨⟨-, hhigh⟩, hodd⟩ := hround ▸ roundHalfEven_bounds num hstep
  have hnormal : 0 < scale → 2 ^ 52 ≤ significand := fun hscale => (hnorm hscale).2
  have hsucc := le_unitsAt_succ hle hnormal
  have hmiddle : (2 * significand + 1) * (den * 2 ^ scale) ≤
      (unitsAt (nearestRank num den) + unitsAt (nearestRank num den + 1)) * den := by
    rw [hrank, unitsAt_of_significand hle hnormal]
    calc
      (2 * significand + 1) * (den * 2 ^ scale) =
          (significand * 2 ^ scale + (significand + 1) * 2 ^ scale) * den := by ring
      _ ≤ _ := Nat.mul_le_mul_right den (Nat.add_le_add_left hsucc _)
  refine ⟨hhigh.trans hmiddle, fun h => ?_⟩
  exact (hodd (by omega)).2.trans_le hmiddle

-- It is not below the middle between its rank and the one before it either. Below a power of
-- two that middle is closer, but there no fraction is rounded up at the wider place.
theorem middle_pred_nearestRank_le (num : ℕ) {den : ℕ} (hden : 0 < den) :
    (unitsAt (nearestRank num den - 1) + unitsAt (nearestRank num den)) * den ≤ 2 * num ∧
      (nearestRank num den % 2 = 1 →
        (unitsAt (nearestRank num den - 1) + unitsAt (nearestRank num den)) * den < 2 * num) := by
  obtain ⟨scale, significand, hrank, hround, hle, hnorm⟩ := exists_nearestRank_eq num hden
  have hstep : 0 < den * 2 ^ scale := Nat.mul_pos hden (Nat.two_pow_pos _)
  obtain ⟨⟨hlow, -⟩, hodd⟩ := hround ▸ roundHalfEven_bounds num hstep
  have hunits : unitsAt (nearestRank num den) = significand * 2 ^ scale := by
    rw [hrank, unitsAt_of_significand hle fun hscale => (hnorm hscale).2]
  by_cases hdown : significand * (den * 2 ^ scale) ≤ num
  · have hexact : unitsAt (nearestRank num den) * den ≤ num := by
      rw [hunits]
      linarith
    constructor
    · have hmono : unitsAt (nearestRank num den - 1) ≤ unitsAt (nearestRank num den) :=
        strictMono_unitsAt.monotone (Nat.sub_le _ _)
      have hpred := Nat.mul_le_mul_right den hmono
      linarith
    · intro h
      have hmono : unitsAt (nearestRank num den - 1) < unitsAt (nearestRank num den) :=
        strictMono_unitsAt (by omega)
      have hpred := Nat.mul_lt_mul_of_pos_right hmono hden
      linarith
  · have hpos : 0 < significand := by
      by_contra hzero
      simp [Nat.eq_zero_of_not_pos hzero] at hdown
    have habove : 0 < scale → 2 ^ 52 < significand := by
      intro hscale
      have hlt := (hnorm hscale).1.trans_lt (not_le.mp hdown)
      exact lt_of_mul_lt_mul_right hlt hstep.le
    have hmiddle : (unitsAt (nearestRank num den - 1) + unitsAt (nearestRank num den)) * den +
        den * 2 ^ scale = 2 * significand * (den * 2 ^ scale) := by
      obtain ⟨below, rfl⟩ : ∃ below, significand = below + 1 := ⟨significand - 1, by omega⟩
      rw [hunits, hrank, unitsAt_pred hle hpos habove, Nat.add_sub_cancel]
      ring
    constructor
    · omega
    · intro h
      have hopen := (hodd (by omega)).1
      omega

end ArithTree
