import ArithTree.Binary64
import Mathlib.Data.Rat.Defs
import Mathlib.Order.Monotone.Basic
import Mathlib.Tactic.Ring

namespace ArithTree.Binary64

variable (x : Binary64)

theorem rank_eq : x.rank = x.scale * 2 ^ 52 + x.significand := by
  simp only [scale, significand]
  omega

theorem significand_lt : x.significand < 2 ^ 53 := by
  simp only [scale, significand]
  omega

-- Above the lowest scale the hidden bit is there.
theorem le_significand (h : 0 < x.scale) : 2 ^ 52 ≤ x.significand := by
  simp only [scale, significand] at h ⊢
  omega

theorem significand_pos (h : x.isZero = false) : 0 < x.significand := by
  simp only [isZero, beq_eq_false_iff_ne] at h
  simp only [scale, significand]
  omega

theorem isFinite_iff : x.isFinite ↔ x.rank < infBits := by simp [isFinite]

theorem isNaN_iff : x.isNaN ↔ infBits < x.rank := by simp [isNaN]

theorem isInfinite_iff : x.isInfinite ↔ x.rank = infBits := by simp [isInfinite]

theorem isZero_iff : x.isZero ↔ x.rank = 0 := by simp [isZero]

theorem ofRank_rank : ofRank x.isNegative x.rank = x := by
  have hbits : x.bits.toNat < 2 ^ 64 := x.bits.toNat_lt
  have heq : UInt64.ofNat (if x.isNegative then 2 ^ 63 + x.rank else x.rank) = x.bits := by
    apply UInt64.toNat_inj.mp
    rw [UInt64.toNat_ofNat']
    simp only [isNegative, rank, decide_eq_true_eq]
    split <;> omega
  rw [ofRank, heq]

theorem rank_ofRank {negative : Bool} {rank : ℕ} (h : rank < 2 ^ 63) :
    (ofRank negative rank).rank = rank := by
  simp only [Binary64.rank, ofRank, UInt64.toNat_ofNat']
  split <;> omega

theorem isNegative_ofRank {negative : Bool} {rank : ℕ} (h : rank < 2 ^ 63) :
    (ofRank negative rank).isNegative = negative := by
  simp only [isNegative, ofRank, UInt64.toNat_ofNat']
  cases negative <;> simp <;> omega

-- A finite magnitude as a whole number of units of `2 ^ -1074`.
def units : ℕ := x.significand * 2 ^ x.scale

-- How many units make one. The number is too long to be computed with, so it stays closed
-- after the facts that are needed of it.
def unitsPerOne : ℕ := 2 ^ 1074

theorem unitsPerOne_eq : unitsPerOne = 2 ^ 1074 := by rw [unitsPerOne]

theorem unitsPerOne_pos : 0 < unitsPerOne := by
  rw [unitsPerOne]
  apply Nat.two_pow_pos

theorem four_mul_unitsPerOne : 4 * unitsPerOne = 2 ^ 1076 := by
  have hpow (n : ℕ) : 4 * 2 ^ n = 2 ^ (n + 2) := by ring
  rw [unitsPerOne_eq, hpow]

attribute [irreducible] unitsPerOne

def magnitude : ℚ := x.units / unitsPerOne

-- The units of the number at a rank. The next rank adds one last place, also where
-- the scale changes.
def unitsAt (rank : ℕ) : ℕ := (rank - (rank / 2 ^ 52 - 1) * 2 ^ 52) * 2 ^ (rank / 2 ^ 52 - 1)

theorem units_eq_unitsAt : x.units = unitsAt x.rank := rfl

theorem unitsAt_succ (rank : ℕ) :
    unitsAt (rank + 1) = unitsAt rank + 2 ^ (rank / 2 ^ 52 - 1) := by
  by_cases hcross : (rank + 1) / 2 ^ 52 - 1 = rank / 2 ^ 52 - 1
  · have hsucc : rank + 1 - (rank / 2 ^ 52 - 1) * 2 ^ 52 =
        rank - (rank / 2 ^ 52 - 1) * 2 ^ 52 + 1 := by omega
    simp only [unitsAt, hcross, hsucc, Nat.add_mul, Nat.one_mul]
  · have hscale : (rank + 1) / 2 ^ 52 - 1 = rank / 2 ^ 52 - 1 + 1 := by omega
    have hlow : rank - (rank / 2 ^ 52 - 1) * 2 ^ 52 = 2 ^ 53 - 1 := by omega
    have hhigh : rank + 1 - ((rank + 1) / 2 ^ 52 - 1) * 2 ^ 52 = 2 ^ 52 := by omega
    simp only [unitsAt, hlow, hhigh]
    rw [hscale, Nat.pow_succ]
    ring

-- The rank of a significand at a scale. A significand that has become `2 ^ 53` ranks as
-- `2 ^ 52` at the next scale.
theorem unitsAt_of_significand {scale significand : ℕ} (hle : significand ≤ 2 ^ 53)
    (hnorm : 0 < scale → 2 ^ 52 ≤ significand) :
    unitsAt (scale * 2 ^ 52 + significand) = significand * 2 ^ scale := by
  unfold unitsAt
  by_cases hcarry : significand = 2 ^ 53
  · have hscale : (scale * 2 ^ 52 + significand) / 2 ^ 52 - 1 = scale + 1 := by omega
    have hlow : scale * 2 ^ 52 + significand - (scale + 1) * 2 ^ 52 = 2 ^ 52 := by omega
    rw [hscale, hlow, hcarry, Nat.pow_succ]
    ring
  · have hscale : (scale * 2 ^ 52 + significand) / 2 ^ 52 - 1 = scale := by omega
    rw [hscale, Nat.add_sub_cancel_left]

-- The next number is at least one place away, also where the places grow.
theorem le_unitsAt_succ {scale significand : ℕ} (hle : significand ≤ 2 ^ 53)
    (hnorm : 0 < scale → 2 ^ 52 ≤ significand) :
    (significand + 1) * 2 ^ scale ≤ unitsAt (scale * 2 ^ 52 + significand + 1) := by
  have hplace : 2 ^ scale ≤ 2 ^ ((scale * 2 ^ 52 + significand) / 2 ^ 52 - 1) := by
    apply Nat.pow_le_pow_right Nat.two_pos
    omega
  rw [unitsAt_succ, unitsAt_of_significand hle hnorm, Nat.add_mul, Nat.one_mul]
  exact Nat.add_le_add_left hplace _

-- The number before is one place away unless the places shrink.
theorem unitsAt_pred {scale significand : ℕ} (hle : significand ≤ 2 ^ 53) (hpos : 0 < significand)
    (hnorm : 0 < scale → 2 ^ 52 < significand) :
    unitsAt (scale * 2 ^ 52 + significand - 1) = (significand - 1) * 2 ^ scale := by
  rw [Nat.add_sub_assoc hpos]
  apply unitsAt_of_significand <;> omega

theorem strictMono_unitsAt : StrictMono unitsAt := by
  apply strictMono_nat_of_lt_succ
  intro rank
  have hpos := Nat.two_pow_pos (rank / 2 ^ 52 - 1)
  rw [unitsAt_succ]
  omega

-- No two numbers of one sign have the same magnitude.
theorem eq_of_units_eq {x y : Binary64} (hsign : x.isNegative = y.isNegative)
    (hunits : x.units = y.units) : x = y := by
  have hrank : x.rank = y.rank := strictMono_unitsAt.injective hunits
  rw [← x.ofRank_rank, hsign, hrank, y.ofRank_rank]

end ArithTree.Binary64
