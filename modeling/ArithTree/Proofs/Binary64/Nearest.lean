import ArithTree.Proofs.Binary64.Units
import Mathlib.Algebra.Order.Field.Rat
import Mathlib.Algebra.Order.AbsoluteValue.Basic
import Mathlib.Tactic.Linarith

namespace ArithTree

-- Of two points the nearer one is on the same side of the middle between them.
theorem abs_sub_le_abs_sub_left_iff {a b q : ℚ} (h : a < b) :
    |a - q| ≤ |b - q| ↔ 2 * q ≤ a + b := by
  rw [← sq_le_sq]
  constructor <;> intro <;> nlinarith

theorem abs_sub_le_abs_sub_right_iff {a b q : ℚ} (h : a < b) :
    |b - q| ≤ |a - q| ↔ a + b ≤ 2 * q := by
  rw [← sq_le_sq]
  constructor <;> intro <;> nlinarith

theorem abs_sub_eq_abs_sub_iff {a b q : ℚ} (h : a < b) :
    |a - q| = |b - q| ↔ 2 * q = a + b := by
  rw [le_antisymm_iff, le_antisymm_iff, abs_sub_le_abs_sub_left_iff h,
    abs_sub_le_abs_sub_right_iff h]

namespace Binary64

-- A number whose magnitude is nearest to some real. No other magnitude is nearer, and if
-- another one is as near, the number is the one with the even significand. Infinity counts as
-- the power of two behind the finite numbers.
structure IsNearest (x : Binary64) (q : ℚ) : Prop where
  isNaN_eq_false : x.isNaN = false
  le (y : Binary64) (hy : y.isNaN = false) : |x.magnitude - q| ≤ |y.magnitude - q|
  even (y : Binary64) (hy : y.isNaN = false) (htie : |x.magnitude - q| = |y.magnitude - q|)
    (hne : y.magnitude ≠ x.magnitude) : x.significand % 2 = 0

def magnitudeAt (rank : ℕ) : ℚ := unitsAt rank / unitsPerOne

variable {x y : Binary64} {q : ℚ}

theorem magnitude_eq_magnitudeAt (x : Binary64) : x.magnitude = magnitudeAt x.rank := rfl

theorem strictMono_magnitudeAt : StrictMono magnitudeAt := by
  intro r s h
  have hone : (0 : ℚ) < unitsPerOne := by exact_mod_cast unitsPerOne_pos
  have hunits : (unitsAt r : ℚ) < unitsAt s := by exact_mod_cast strictMono_unitsAt h
  exact div_lt_div_of_pos_right hunits hone

theorem isNaN_eq_false_iff (x : Binary64) : x.isNaN = false ↔ x.rank ≤ infBits := by
  rw [← Bool.not_eq_true, isNaN_iff, Nat.not_lt]

-- Every rank up to that of infinity is the rank of a number.
theorem exists_rank_eq {rank : ℕ} (h : rank ≤ infBits) :
    ∃ x : Binary64, x.isNaN = false ∧ x.rank = rank := by
  have hrank : (ofRank false rank).rank = rank := by
    apply rank_ofRank
    unfold infBits at h
    omega
  exact ⟨ofRank false rank, (isNaN_eq_false_iff _).mpr (hrank.symm ▸ h), hrank⟩

theorem rank_mod_two (x : Binary64) : x.rank % 2 = x.significand % 2 := by
  have hrank := x.rank_eq
  omega

theorem isNearest_magnitude (h : x.isNaN = false) : x.IsNearest x.magnitude where
  isNaN_eq_false := h
  le y _ := by
    rw [sub_self, abs_zero]
    exact abs_nonneg _
  even y _ htie hne := by
    rw [sub_self, abs_zero, eq_comm, abs_eq_zero, sub_eq_zero] at htie
    exact absurd htie hne

-- Between two magnitudes that are equally near another one would be nearer, and there is one
-- unless their ranks have different parities.
theorem IsNearest.not_rank_lt (hx : x.IsNearest q) (hy : y.IsNearest q) : ¬x.rank < y.rank := by
  intro hlt
  have hmagnitude : x.magnitude < y.magnitude := strictMono_magnitudeAt hlt
  have htie : |x.magnitude - q| = |y.magnitude - q| :=
    le_antisymm (hx.le y hy.isNaN_eq_false) (hy.le x hx.isNaN_eq_false)
  have hmiddle := (abs_sub_eq_abs_sub_iff hmagnitude).mp htie
  have hevenx := hx.even y hy.isNaN_eq_false htie hmagnitude.ne'
  have heveny := hy.even x hx.isNaN_eq_false htie.symm hmagnitude.ne
  have hparityx := x.rank_mod_two
  have hparityy := y.rank_mod_two
  have hrank := (isNaN_eq_false_iff y).mp hy.isNaN_eq_false
  have hsucc : x.rank + 1 ≤ infBits := by omega
  obtain ⟨z, hz, hzrank⟩ := exists_rank_eq hsucc
  have hxz : x.magnitude < z.magnitude := strictMono_magnitudeAt (by omega)
  have hzy : z.magnitude < y.magnitude := strictMono_magnitudeAt (by omega)
  have hnear := (abs_sub_le_abs_sub_left_iff hxz).mp (hx.le z hz)
  linarith

-- The nearest number is unique up to its sign.
theorem IsNearest.rank_eq (hx : x.IsNearest q) (hy : y.IsNearest q) : x.rank = y.rank := by
  have hxy := hx.not_rank_lt hy
  have hyx := hy.not_rank_lt hx
  omega

theorem IsNearest.eq (hx : x.IsNearest q) (hy : y.IsNearest q)
    (hsign : x.isNegative = y.isNegative) : x = y := by
  rw [← x.ofRank_rank, ← y.ofRank_rank, hx.rank_eq hy, hsign]

-- Any other number lies at one of the neighbours of a number or behind it.
theorem magnitude_cases (x y : Binary64) :
    (y.magnitude < x.magnitude ∧ y.magnitude ≤ magnitudeAt (x.rank - 1)) ∨
      y.magnitude = x.magnitude ∨
      (x.magnitude < y.magnitude ∧ magnitudeAt (x.rank + 1) ≤ y.magnitude) := by
  rcases Nat.lt_trichotomy y.rank x.rank with hlt | heq | hgt
  · exact .inl ⟨strictMono_magnitudeAt hlt, strictMono_magnitudeAt.monotone (by omega)⟩
  · exact .inr (.inl (congrArg magnitudeAt heq))
  · exact .inr (.inr ⟨strictMono_magnitudeAt hgt, strictMono_magnitudeAt.monotone hgt⟩)

-- Up to the middle between a number and the next one the number is the nearer of the two, and
-- at the middle if it is even.
theorem IsNearest.le_middle_succ (h : x.IsNearest q) (hfinite : x.isFinite) :
    2 * q ≤ x.magnitude + magnitudeAt (x.rank + 1) ∧
      (x.significand % 2 = 1 → 2 * q < x.magnitude + magnitudeAt (x.rank + 1)) := by
  obtain ⟨above, habove, hrank⟩ := exists_rank_eq (Nat.succ_le_of_lt (x.isFinite_iff.mp hfinite))
  have hlt : x.magnitude < above.magnitude := strictMono_magnitudeAt (by omega)
  have heq : magnitudeAt (x.rank + 1) = above.magnitude := congrArg _ hrank.symm
  have hle := (abs_sub_le_abs_sub_left_iff hlt).mp (h.le above habove)
  rw [heq]
  refine ⟨hle, fun hodd => lt_of_le_of_ne hle fun htie => ?_⟩
  have heven := h.even above habove ((abs_sub_eq_abs_sub_iff hlt).mpr htie) hlt.ne'
  omega

theorem IsNearest.middle_pred_le (h : x.IsNearest q) (hzero : x.isZero = false) :
    magnitudeAt (x.rank - 1) + x.magnitude ≤ 2 * q ∧
      (x.significand % 2 = 1 → magnitudeAt (x.rank - 1) + x.magnitude < 2 * q) := by
  have hpos : ¬x.rank = 0 := by rwa [← isZero_iff, Bool.not_eq_true]
  have hpred := (Nat.sub_le x.rank 1).trans (x.isNaN_eq_false_iff.mp h.isNaN_eq_false)
  obtain ⟨below, hbelow, hrank⟩ := exists_rank_eq hpred
  have hlt : below.magnitude < x.magnitude := strictMono_magnitudeAt (by omega)
  have heq : magnitudeAt (x.rank - 1) = below.magnitude := congrArg _ hrank.symm
  have hle := (abs_sub_le_abs_sub_right_iff hlt).mp (h.le below hbelow)
  rw [heq]
  refine ⟨hle, fun hodd => lt_of_le_of_ne hle fun htie => ?_⟩
  have heven := h.even below hbelow ((abs_sub_eq_abs_sub_iff hlt).mpr htie.symm).symm hlt.ne
  omega

-- Between its two middles the number is nearest of all. Infinity has only the lower one.
theorem isNearest_of_middles (hnan : x.isNaN = false)
    (hlow : magnitudeAt (x.rank - 1) + x.magnitude ≤ 2 * q ∧
      (x.significand % 2 = 1 → magnitudeAt (x.rank - 1) + x.magnitude < 2 * q))
    (hhigh : x.isFinite → 2 * q ≤ x.magnitude + magnitudeAt (x.rank + 1) ∧
      (x.significand % 2 = 1 → 2 * q < x.magnitude + magnitudeAt (x.rank + 1))) :
    x.IsNearest q := by
  have hfinite (y : Binary64) (hy : y.isNaN = false) (hlt : x.magnitude < y.magnitude) :
      x.isFinite := by
    have hrank : x.rank < y.rank := strictMono_magnitudeAt.lt_iff_lt.mp hlt
    exact x.isFinite_iff.mpr (hrank.trans_le (y.isNaN_eq_false_iff.mp hy))
  refine ⟨hnan, fun y hy => ?_, fun y hy htie hne => ?_⟩
  · rcases magnitude_cases x y with ⟨hlt, hle⟩ | heq | ⟨hlt, hle⟩
    · rw [abs_sub_le_abs_sub_right_iff hlt]
      linarith [hlow.1]
    · rw [heq]
    · rw [abs_sub_le_abs_sub_left_iff hlt]
      linarith [(hhigh (hfinite y hy hlt)).1]
  · by_contra heven
    have hodd : x.significand % 2 = 1 := by omega
    rcases magnitude_cases x y with ⟨hlt, hle⟩ | heq | ⟨hlt, hle⟩
    · rw [eq_comm, abs_sub_eq_abs_sub_iff hlt] at htie
      linarith [hlow.2 hodd]
    · exact hne heq
    · rw [abs_sub_eq_abs_sub_iff hlt] at htie
      linarith [(hhigh (hfinite y hy hlt)).2 hodd]

theorem isNearest_iff_middles (hfinite : x.isFinite) (hzero : x.isZero = false) :
    x.IsNearest q ↔
      (magnitudeAt (x.rank - 1) + x.magnitude ≤ 2 * q ∧
        (x.significand % 2 = 1 → magnitudeAt (x.rank - 1) + x.magnitude < 2 * q)) ∧
      2 * q ≤ x.magnitude + magnitudeAt (x.rank + 1) ∧
        (x.significand % 2 = 1 → 2 * q < x.magnitude + magnitudeAt (x.rank + 1)) := by
  constructor
  · intro h
    exact ⟨h.middle_pred_le hzero, h.le_middle_succ hfinite⟩
  · rintro ⟨hlow, hhigh⟩
    have hnan := x.isNaN_eq_false_iff.mpr (x.isFinite_iff.mp hfinite).le
    exact isNearest_of_middles hnan hlow fun _ => hhigh

end Binary64

end ArithTree
