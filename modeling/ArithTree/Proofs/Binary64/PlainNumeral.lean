import ArithTree.Proofs.Binary64.UnitFraction

namespace ArithTree

-- A decimal between zero and one has no digits before the point but a zero.
theorem Decimal.exists_positional_eq {d : Decimal} (hpos : 0 < d.num) (hlt : d.num < d.den) :
    ∃ digits, digits ≠ [] ∧ digits.all Char.isDigit ∧ d.positional = '0' :: '.' :: digits := by
  have hexponent : d.exponent < 0 := by
    by_contra hexponent
    have hone : (-d.exponent).toNat = 0 := by omega
    rw [den, hone, Nat.pow_zero] at hlt
    omega
  have hnum : d.num = d.digits := by
    have hzero : d.exponent.toNat = 0 := by omega
    rw [num, hzero, Nat.pow_zero, Nat.mul_one]
  have hlength : (Nat.toDigits 10 d.digits).length ≤ (-d.exponent).toNat := by
    rw [Nat.length_toDigits_le_iff (by decide) (by omega), ← hnum]
    exact hlt
  have hpoint : d.pointPosition ≤ 0 := by
    rw [pointPosition]
    omega
  refine ⟨List.replicate (-d.pointPosition).toNat '0' ++ Nat.toDigits 10 d.digits, ?_, ?_, ?_⟩
  · exact List.append_ne_nil_of_right_ne_nil _ Nat.toDigits_ne_nil
  · simp [all_isDigit_toDigits]
  · simp only [positional, if_pos hpoint]

namespace Binary64

variable {x : Binary64}

-- The middle between a number and the one before it lies above zero.
theorem num_shortest_pos (hfinite : x.isFinite) (hzero : x.isZero = false) :
    0 < x.shortest.num := by
  have hlow := ((isNearest_shortest hfinite hzero).middle_pred_le hzero).1
  have hunits : 0 < unitsAt (x.rank - 1) + unitsAt x.rank := by
    have hpos := Nat.mul_pos (x.significand_pos hzero) (Nat.two_pow_pos x.scale)
    exact Nat.add_pos_right _ hpos
  have hmul := Nat.mul_pos hunits x.shortest.den_pos
  apply Nat.pos_of_ne_zero
  intro hnum
  rw [magnitude_eq_magnitudeAt, Decimal.magnitudeAt_add_le_iff, hnum] at hlow
  omega

theorem num_shortest_lt_den (hfinite : x.isFinite) (hzero : x.isZero = false)
    (hlt : 4 * x.units + 2 * 2 ^ x.scale < 4 * unitsPerOne) : x.shortest.num < x.shortest.den := by
  have hhigh := ((isNearest_shortest hfinite hzero).le_middle_succ hfinite).1
  rw [magnitude_eq_magnitudeAt, Decimal.le_magnitudeAt_add_iff, ← units_eq_unitsAt] at hhigh
  have hmiddle : 2 * (x.units + unitsAt (x.rank + 1)) = 4 * x.units + 2 * 2 ^ x.scale := by
    rw [two_mul_units_add_unitsAt_succ, units]
    ring
  have hunits : x.units + unitsAt (x.rank + 1) < 2 * unitsPerOne := by omega
  have hone : unitsPerOne * x.shortest.num < unitsPerOne * x.shortest.den := by
    have hmul := Nat.mul_lt_mul_of_pos_right hunits x.shortest.den_pos
    rw [Nat.mul_assoc] at hmul
    omega
  exact Nat.lt_of_mul_lt_mul_left hone

-- A magnitude below one is written with an exponent or as a zero, a point and digits.
theorem Spells.exists_eq {cs : List Char} (h : x.Spells cs) (hfinite : x.isFinite)
    (hlt : 4 * x.units + 2 * 2 ^ x.scale < 4 * unitsPerOne) (he : 'e' ∉ cs) :
    ∃ digits, digits ≠ [] ∧ digits.all Char.isDigit ∧ cs = '0' :: '.' :: digits := by
  cases h with
  | infinity hinf => exact absurd hfinite (x.not_isFinite_of_isInfinite hinf)
  | zero => exact ⟨['0'], by decide, by decide, rfl⟩
  | positional _ hzero =>
    exact Decimal.exists_positional_eq (num_shortest_pos hfinite hzero)
      (num_shortest_lt_den hfinite hzero hlt)
  | scientific => exact absurd x.shortest.e_mem_scientific he

theorem scale_ofUnitFraction_le {k : ℕ} (hlt : k < 2 ^ 53) : (ofUnitFraction k).scale ≤ 1021 := by
  rw [scale]
  by_cases hk : k = 0
  · have hrank : (ofUnitFraction k).rank = 0 := by
      subst hk
      exact rank_ofRank (by decide)
    omega
  · obtain ⟨hrank, hlow, hhigh⟩ := rank_ofUnitFraction (Nat.pos_of_ne_zero hk) hlt
    have hlog : k.log2 < 53 := (Nat.log2_lt hk).mpr hlt
    omega

-- The largest fraction of 53 bits lies a whole place below one.
theorem units_ofUnitFraction_lt {k : ℕ} (hlt : k < 2 ^ 53) :
    4 * (ofUnitFraction k).units + 2 * 2 ^ (ofUnitFraction k).scale < 4 * unitsPerOne := by
  have hone := unitsPerOne_pos
  have hscale : 2 ^ (ofUnitFraction k).scale * 2 ^ 53 ≤ unitsPerOne := by
    have hle : (ofUnitFraction k).scale + 53 ≤ 1074 :=
      Nat.add_le_add_right (scale_ofUnitFraction_le hlt) 53
    rw [unitsPerOne_eq, ← Nat.pow_add]
    apply Nat.pow_le_pow_right Nat.two_pos hle
  apply Nat.lt_of_mul_lt_mul_right (a := 2 ^ 53)
  calc
    (4 * (ofUnitFraction k).units + 2 * 2 ^ (ofUnitFraction k).scale) * 2 ^ 53 =
        4 * ((ofUnitFraction k).units * 2 ^ 53) + 2 * (2 ^ (ofUnitFraction k).scale * 2 ^ 53) := by
      ring
    _ ≤ 4 * (k * unitsPerOne) + 2 * unitsPerOne := by
      rw [units_ofUnitFraction hlt]
      omega
    _ = (4 * k + 2) * unitsPerOne := by ring
    _ < 4 * 2 ^ 53 * unitsPerOne := Nat.mul_lt_mul_of_pos_right (by omega) hone
    _ = 4 * unitsPerOne * 2 ^ 53 := by ring

-- A fraction of 53 bits with a plain text is a zero, a point and digits.
theorem exists_numeral_ofUnitFraction_eq {k : ℕ} (hplain : k = 0 ∨ 900719925475 ≤ k)
    (hlt : k < 2 ^ 53) :
    ∃ digits, digits ≠ [] ∧ digits.all Char.isDigit ∧
      (ofUnitFraction k).numeral = '0' :: '.' :: digits := by
  have hfinite := isFinite_ofUnitFraction hlt
  have hnan := isNaN_eq_false_of_isFinite _ hfinite
  have hnumeral : (ofUnitFraction k).numeral = (ofUnitFraction k).magnitudeNumeral := by
    rw [numeral_of_isNaN_eq_false _ hnan, isNegative_ofUnitFraction hlt]
    rfl
  have he : 'e' ∉ (ofUnitFraction k).numeral := by
    rw [e_mem_numeral_ofUnitFraction hlt]
    omega
  rw [hnumeral] at he ⊢
  exact (spells_magnitudeNumeral _ hnan).exists_eq hfinite (units_ofUnitFraction_lt hlt) he

end Binary64

end ArithTree
