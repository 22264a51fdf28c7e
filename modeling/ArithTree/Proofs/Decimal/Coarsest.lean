import ArithTree.Proofs.Decimal.ReadBack

namespace ArithTree

-- `a` is at least as near to `v` as `b` is, and no lower if both are equally near.
structure Preferred (v a b : ℚ) : Prop where
  le : |a - v| ≤ |b - v|
  tie (h : |a - v| = |b - v|) : b ≤ a

namespace Preferred

variable {v a b c : ℚ}

-- From below, the higher the better, and from above, the lower.
theorem of_le_of_le (hba : b ≤ a) (hav : a ≤ v) : Preferred v a b := by
  constructor
  · rw [abs_of_nonpos (by linarith), abs_of_nonpos (by linarith)]
    linarith
  · intro _
    exact hba

theorem of_ge_of_ge (hva : v ≤ a) (hab : a ≤ b) : Preferred v a b := by
  have ha : |a - v| = a - v := abs_of_nonneg (by linarith)
  have hb : |b - v| = b - v := abs_of_nonneg (by linarith)
  constructor
  · linarith
  · intro htie
    linarith

-- Of two points around the value, the upper one wins a tie.
theorem of_sub_lt (hav : a ≤ v) (h : v - a < b - v) : Preferred v a b := by
  have hlt : |a - v| < |b - v| := by
    rw [abs_of_nonpos (by linarith), abs_of_nonneg (by linarith)]
    linarith
  exact ⟨hlt.le, fun htie => absurd htie hlt.ne⟩

theorem of_sub_le (hav : a ≤ v) (hvb : v ≤ b) (h : b - v ≤ v - a) : Preferred v b a := by
  refine ⟨?_, fun _ => hav.trans hvb⟩
  rw [abs_of_nonpos (show a - v ≤ 0 by linarith), abs_of_nonneg (by linarith)]
  linarith

theorem trans (hab : Preferred v a b) (hbc : Preferred v b c) : Preferred v a c := by
  refine ⟨hab.le.trans hbc.le, fun htie => ?_⟩
  have hb : |a - v| = |b - v| := le_antisymm hab.le (htie ▸ hbc.le)
  exact (hbc.tie (hb.symm.trans htie)).trans (hab.tie hb)

theorem mul_right_iff {t : ℚ} (ht : 0 < t) :
    Preferred (v * t) (a * t) (b * t) ↔ Preferred v a b := by
  have hdistance (q : ℚ) : |q * t - v * t| = |q - v| * t := by
    rw [← sub_mul, abs_mul, abs_of_pos ht]
  constructor
  · rintro ⟨hle, htie⟩
    rw [hdistance, hdistance] at hle htie
    refine ⟨le_of_mul_le_mul_right hle ht, fun h => ?_⟩
    exact le_of_mul_le_mul_right (htie (congrArg (· * t) h)) ht
  · rintro ⟨hle, htie⟩
    constructor
    · rw [hdistance, hdistance]
      exact mul_le_mul_of_nonneg_right hle ht.le
    · rw [hdistance, hdistance]
      intro h
      exact mul_le_mul_of_nonneg_right (htie (mul_right_cancel₀ ht.ne' h)) ht.le

end Preferred

namespace Window

variable {w : Window} {step power start : ℕ}

theorem Spans.of_between {a b q : ℚ} (ha : w.Spans a) (hb : w.Spans b) (haq : a ≤ q)
    (hqb : q ≤ b) : w.Spans q := by
  unfold Spans at *
  split at ha
  next hclosed =>
    rw [if_pos hclosed] at hb ⊢
    exact ⟨ha.1.trans haq, hqb.trans hb.2⟩
  next hopen =>
    rw [if_neg hopen] at hb ⊢
    exact ⟨ha.1.trans_le haq, hqb.trans_lt hb.2⟩

theorem contains_of_between {a b n : ℕ} (ha : w.contains a) (hb : w.contains b) (han : a ≤ n)
    (hnb : n ≤ b) : w.contains n := by
  rw [← spans_natCast] at *
  exact ha.of_between hb (by exact_mod_cast han) (by exact_mod_cast hnb)

theorem Spans.low_le {q : ℚ} (h : w.Spans q) : w.low ≤ q := by
  unfold Spans at h
  split at h
  · exact h.1
  · exact h.1.le

theorem Spans.le_high {q : ℚ} (h : w.Spans q) : q ≤ w.high := by
  unfold Spans at h
  split at h
  · exact h.2
  · exact h.2.le

-- Any other multiple lies behind one of the two around the value.
theorem neighbour_of_contains (hvalue : w.contains w.value) (hstep : 0 < step) {k : ℕ}
    (hk : w.contains (k * step)) :
    (w.contains (w.value / step * step) ∧
        Preferred w.value (w.value / step * step : ℕ) (k * step : ℕ)) ∨
      w.contains ((w.value / step + 1) * step) ∧
        Preferred w.value ((w.value / step + 1) * step : ℕ) (k * step : ℕ) := by
  have hbelow : w.value / step * step ≤ w.value := Nat.div_mul_le_self _ _
  have habove : w.value ≤ (w.value / step + 1) * step := by
    rw [Nat.mul_comm]
    exact (Nat.lt_mul_div_succ _ hstep).le
  by_cases hside : k ≤ w.value / step
  · have hmul := Nat.mul_le_mul_right step hside
    refine .inl ⟨contains_of_between hk hvalue hmul hbelow, ?_⟩
    apply Preferred.of_le_of_le
    · exact_mod_cast hmul
    · exact_mod_cast hbelow
  · have hmul := Nat.mul_le_mul_right step (Nat.lt_of_not_le hside)
    refine .inr ⟨contains_of_between hvalue hk habove hmul, ?_⟩
    apply Preferred.of_ge_of_ge
    · exact_mod_cast habove
    · exact_mod_cast hmul

-- The search finds a multiple if there is one, and no other one is preferred to it.
theorem exists_nearestMultiple?_eq (hvalue : w.contains w.value) (hstep : 0 < step) {k : ℕ}
    (hk : w.contains (k * step)) :
    ∃ count, w.nearestMultiple? step = some count ∧
      Preferred w.value (count * step : ℕ) (k * step : ℕ) := by
  have hneighbour := neighbour_of_contains hvalue hstep hk
  have hbelow : w.value / step * step ≤ w.value := Nat.div_mul_le_self _ _
  have habove : w.value < (w.value / step + 1) * step := by
    rw [Nat.mul_comm]
    exact Nat.lt_mul_div_succ _ hstep
  simp only [nearestMultiple?]
  generalize w.value / step = below at *
  cases hb : w.contains (below * step) with
  | false =>
    cases ha : w.contains ((below + 1) * step) with
    | false => simp [hb, ha] at hneighbour
    | true => exact ⟨below + 1, rfl, by simpa [hb, ha] using hneighbour⟩
  | true =>
    cases ha : w.contains ((below + 1) * step) with
    | false => exact ⟨below, rfl, by simpa [hb, ha] using hneighbour⟩
    | true =>
      simp only [hb, ha, true_and] at hneighbour
      have hlow : ((below * step : ℕ) : ℚ) ≤ w.value := by exact_mod_cast hbelow
      have hhigh : (w.value : ℚ) ≤ ((below + 1) * step : ℕ) := by exact_mod_cast habove.le
      by_cases hnear : w.value - below * step < (below + 1) * step - w.value
      · refine ⟨below, if_pos hnear, hneighbour.elim id (Preferred.of_sub_lt hlow ?_).trans⟩
        rw [← Nat.cast_sub hbelow, ← Nat.cast_sub habove.le]
        exact_mod_cast hnear
      · refine ⟨below + 1, if_neg hnear, hneighbour.elim (Preferred.of_sub_le hlow hhigh ?_).trans id⟩
        rw [← Nat.cast_sub hbelow, ← Nat.cast_sub habove.le]
        exact_mod_cast Nat.le_of_not_lt hnear

-- From the start down to the grid that the search ends with, no grid has a point in the window.
theorem not_contains_of_coarsest_lt (hvalue : w.contains w.value)
    (hlt : (w.coarsest start).2 < power) (hle : power ≤ start) (k : ℕ) :
    ¬w.contains (k * 10 ^ power) := by
  induction start with
  | zero => omega
  | succ start ih =>
    intro hk
    rw [coarsest] at hlt
    by_cases hpower : power = start + 1
    · subst hpower
      obtain ⟨count, hcount, -⟩ := exists_nearestMultiple?_eq hvalue (Nat.pow_pos (by omega)) hk
      simp [hcount] at hlt
    · split at hlt
      next => omega
      next => exact ih hlt (by omega) hk

theorem preferred_coarsest (hvalue : w.contains w.value) {k : ℕ}
    (hk : w.contains (k * 10 ^ (w.coarsest start).2)) :
    Preferred w.value ((w.coarsest start).1 * 10 ^ (w.coarsest start).2 : ℕ)
      (k * 10 ^ (w.coarsest start).2 : ℕ) := by
  induction start with
  | zero =>
    simp only [coarsest, Nat.pow_zero, Nat.mul_one]
    rcases Nat.le_total k w.value with hle | hge
    · exact .of_le_of_le (by exact_mod_cast hle) le_rfl
    · exact .of_ge_of_ge le_rfl (by exact_mod_cast hge)
  | succ start ih =>
    rw [coarsest] at hk ⊢
    split at hk
    next count hcount =>
      obtain ⟨count', hcount', hprefer⟩ :=
        exists_nearestMultiple?_eq hvalue (Nat.pow_pos (by omega)) hk
      obtain rfl := Option.some.inj (hcount.symm.trans hcount')
      exact hprefer
    next => exact ih hk

-- The same digits on a finer grid are a tenth or less.
theorem ten_mul_le_of_lt (digits : ℕ) {exponent : ℤ} (h : exponent < power) :
    10 * ((digits : ℚ) * 10 ^ exponent) ≤ digits * 10 ^ power := by
  have hexponent : (10 : ℚ) ^ (exponent + 1) ≤ 10 ^ (power : ℤ) :=
    zpow_le_zpow_right₀ (by norm_num) h
  rw [zpow_add_one₀ (by norm_num), zpow_natCast] at hexponent
  have hmul := mul_le_mul_of_nonneg_left hexponent (Nat.cast_nonneg (α := ℚ) digits)
  linarith

-- The outcome of a search: the preferred point of the coarsest grid with one in the window.
structure Finds (w : Window) (count power : ℕ) : Prop where
  contains : w.contains (count * 10 ^ power)
  coarsest (higher k : ℕ) (h : power < higher) : ¬w.contains (k * 10 ^ higher)
  preferred (k : ℕ) (hk : w.contains (k * 10 ^ power)) :
    Preferred w.value (count * 10 ^ power : ℕ) (k * 10 ^ power : ℕ)

-- A window that reaches from a power of ten down to nine tenths of it has its value nearer to the
-- power.
def RoundsToPower (w : Window) : Prop :=
  ∀ power, 10 ^ power ≤ w.high → w.value < 10 ^ power → 10 * w.low ≤ 9 * 10 ^ power →
    19 * 10 ^ power ≤ 20 * w.value

namespace Finds

variable {count digits : ℕ} {exponent : ℤ}

theorem not_dvd (h : w.Finds count power) : ¬10 ∣ count := by
  rintro ⟨k, rfl⟩
  apply h.coarsest (power + 1) k (Nat.lt_succ_self _)
  rw [Nat.pow_succ, ← Nat.mul_assoc, Nat.mul_right_comm, Nat.mul_comm k]
  exact h.contains

theorem exponent_le (h : w.Finds count power) (hspans : w.Spans (digits * 10 ^ exponent)) :
    exponent ≤ power := by
  by_contra hlt
  obtain ⟨higher, rfl⟩ : ∃ higher : ℕ, exponent = higher := ⟨exponent.toNat, by omega⟩
  apply h.coarsest higher digits (by omega)
  rw [← spans_natCast]
  exact_mod_cast hspans

theorem pow_le_count (h : w.Finds count power) :
    10 ^ ((Nat.toDigits 10 count).length - 1) ≤ count := by
  have hpos : count ≠ 0 := by
    rintro rfl
    exact h.not_dvd (dvd_zero 10)
  by_cases hone : (Nat.toDigits 10 count).length = 1
  · rw [hone]
    exact Nat.pos_of_ne_zero hpos
  · have hlength : 0 < (Nat.toDigits 10 count).length := Nat.length_toDigits_pos
    by_contra hlt
    have hle := (Nat.length_toDigits_le_iff (b := 10) (by decide)
      (show 0 < (Nat.toDigits 10 count).length - 1 by omega)).mpr (Nat.lt_of_not_le hlt)
    omega

-- The power of ten with as many digits would be a point of a coarser grid.
theorem pow_lt_of_spans (h : w.Finds count power) (hlong : 2 ≤ (Nat.toDigits 10 count).length)
    {q : ℚ} (hspans : w.Spans q) :
    10 ^ ((Nat.toDigits 10 count).length - 1) * 10 ^ power < q := by
  by_contra hle
  rw [not_lt] at hle
  have hcount := Nat.mul_le_mul_right (10 ^ power) h.pow_le_count
  apply h.coarsest (power + 1) (10 ^ ((Nat.toDigits 10 count).length - 2)) (Nat.lt_succ_self _)
  have hpow : 10 ^ ((Nat.toDigits 10 count).length - 2) * 10 ^ (power + 1) =
      10 ^ ((Nat.toDigits 10 count).length - 1) * 10 ^ power := by
    rw [← Nat.pow_add, ← Nat.pow_add]
    congr 1
    omega
  rw [hpow, ← spans_natCast]
  apply hspans.of_between (spans_natCast.mpr h.contains)
  · exact_mod_cast hle
  · exact_mod_cast hcount

-- No decimal in the window has fewer digits.
theorem length_le (h : w.Finds count power) (hspans : w.Spans (digits * 10 ^ exponent)) :
    (Nat.toDigits 10 count).length ≤ (Nat.toDigits 10 digits).length := by
  by_contra hlt
  have hlength : 0 < (Nat.toDigits 10 digits).length := Nat.length_toDigits_pos
  have hpow := h.pow_lt_of_spans (by omega) hspans
  have hdigits : digits < 10 ^ ((Nat.toDigits 10 count).length - 1) :=
    (Nat.length_toDigits_le_iff (by decide) (by omega)).mp (by omega)
  have hle : (10 : ℚ) ^ exponent ≤ 10 ^ (power : ℤ) :=
    zpow_le_zpow_right₀ (by norm_num) (h.exponent_le hspans)
  have hcast : (digits : ℚ) ≤ 10 ^ ((Nat.toDigits 10 count).length - 1) := by
    exact_mod_cast hdigits.le
  rw [zpow_natCast] at hle
  have hmul := mul_le_mul hcast hle (zpow_pos (by norm_num) _).le (by positivity)
  linarith

theorem preferred_of_mul_le (h : w.Finds count power) (hround : w.RoundsToPower) {q : ℚ}
    (hspans : w.Spans q) (hq : 10 * q ≤ 9 * 10 ^ power) :
    Preferred w.value (count * 10 ^ power : ℕ) q := by
  have hpower : (0 : ℚ) < 10 ^ power := by positivity
  have hcount : 10 ^ power ≤ count * 10 ^ power :=
    Nat.le_mul_of_pos_left _ (Nat.pos_of_ne_zero (by rintro rfl; exact h.not_dvd (dvd_zero 10)))
  have hspans' : w.Spans (10 ^ power : ℕ) := by
    apply hspans.of_between (spans_natCast.mpr h.contains)
    · push_cast
      linarith
    · exact_mod_cast hcount
  have hprefer := h.preferred 1 (by simpa using spans_natCast.mp hspans')
  rw [Nat.one_mul] at hprefer
  apply hprefer.trans
  by_cases hvalue : w.value < 10 ^ power
  · have hhigh := hspans'.le_high
    have hlow := hspans.low_le
    have hnear := hround power (by exact_mod_cast hhigh) hvalue
      (by exact_mod_cast (by linarith : (10 * w.low : ℚ) ≤ 9 * 10 ^ power))
    have hcast : (19 * 10 ^ power : ℚ) ≤ 20 * w.value := by exact_mod_cast hnear
    have hcast' : (w.value : ℚ) ≤ 10 ^ power := by exact_mod_cast hvalue.le
    apply Preferred.of_sub_le
    · linarith
    · exact_mod_cast hvalue.le
    · push_cast
      linarith
  · apply Preferred.of_le_of_le
    · push_cast
      linarith
    · exact_mod_cast Nat.le_of_not_lt hvalue

-- A rival on a finer grid lies below the power of ten that has as many digits as the point found.
-- That power is no point of a coarser grid only if the digits are one.
theorem preferred_of_length_le (h : w.Finds count power) (hround : w.RoundsToPower)
    (hspans : w.Spans (digits * 10 ^ exponent))
    (hlength : (Nat.toDigits 10 digits).length ≤ (Nat.toDigits 10 count).length) :
    Preferred w.value (count * 10 ^ power : ℕ) (digits * 10 ^ exponent) := by
  by_cases hgrid : exponent = power
  · subst hgrid
    have hcast : (digits : ℚ) * 10 ^ (power : ℤ) = (digits * 10 ^ power : ℕ) := by push_cast; rfl
    rw [hcast] at hspans ⊢
    exact h.preferred digits (spans_natCast.mp hspans)
  · have hfiner := h.exponent_le hspans
    have htenth := ten_mul_le_of_lt digits (lt_of_le_of_ne hfiner hgrid)
    have hlt : digits < 10 ^ (Nat.toDigits 10 count).length :=
      (Nat.length_toDigits_le_iff (by decide) Nat.length_toDigits_pos).mp hlength
    have hpower : (0 : ℚ) < 10 ^ power := by positivity
    by_cases hone : (Nat.toDigits 10 count).length = 1
    · rw [hone] at hlt
      have hcast : (digits : ℚ) ≤ 9 := by exact_mod_cast Nat.le_of_lt_succ hlt
      have hmul := mul_le_mul_of_nonneg_right hcast hpower.le
      exact h.preferred_of_mul_le hround hspans (by linarith)
    · have hlength : 0 < (Nat.toDigits 10 count).length := Nat.length_toDigits_pos
      have hpow := h.pow_lt_of_spans (by omega) hspans
      have hcast : (digits : ℚ) < 10 * 10 ^ ((Nat.toDigits 10 count).length - 1) := by
        rw [← pow_succ', Nat.sub_add_cancel hlength]
        exact_mod_cast hlt
      have hmul := mul_lt_mul_of_pos_right hcast hpower
      linarith

end Finds

end Window

end ArithTree
