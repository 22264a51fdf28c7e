import ArithTree.Proofs.Decimal.Numeral
import ArithTree.Proofs.NumEq

namespace ArithTree

namespace Binary64

variable {x y : Binary64}

theorem canonical_of_isNaN (h : x.isNaN) : x.canonical = nan := if_pos h

theorem canonical_eq_iff : x.canonical = y.canonical ↔ x = y ∨ x.isNaN ∧ y.isNaN := by
  have hnan : nan.isNaN := by decide
  constructor
  · intro h
    cases hx : x.isNaN with
    | true =>
      cases hy : y.isNaN with
      | true => exact .inr ⟨rfl, rfl⟩
      | false =>
        rw [canonical_of_isNaN hx, canonical_of_isNaN_eq_false hy] at h
        rw [← h, hnan] at hy
        cases hy
    | false =>
      cases hy : y.isNaN with
      | true =>
        rw [canonical_of_isNaN_eq_false hx, canonical_of_isNaN hy] at h
        rw [h, hnan] at hx
        cases hx
      | false =>
        rw [canonical_of_isNaN_eq_false hx, canonical_of_isNaN_eq_false hy] at h
        exact .inl h
  · rintro (rfl | ⟨hx, hy⟩)
    · rfl
    · rw [canonical_of_isNaN hx, canonical_of_isNaN hy]

-- The text of a finite number is its sign and a decimal, and of all numbers with the sign only
-- this one is nearest to the decimal.
theorem exists_decimal_of_isFinite (hfinite : x.isFinite) :
    ∃ magnitude d, x.numeral = (if x.isNegative then ['-'] else []) ++ magnitude ∧
      Decimal.read? magnitude = some d ∧
      ∀ y : Binary64, y = x ↔ y.isNegative = x.isNegative ∧ y.IsNearest d.value := by
  have hnan := x.isNaN_eq_false_of_isFinite hfinite
  obtain ⟨d, hread, hnearest, -⟩ :=
    (x.spells_magnitudeNumeral hnan).exists_read?_isNearest hfinite
  refine ⟨x.magnitudeNumeral, d, x.numeral_of_isNaN_eq_false hnan, hread, fun y => ?_⟩
  constructor
  · rintro rfl
    exact ⟨rfl, hnearest⟩
  · rintro ⟨hsign, hy⟩
    exact hy.eq hnearest hsign

end Binary64

namespace Value

-- What two values with one text can be.
theorem canonical_eq_iff {v w : Value} :
    v.canonical = w.canonical ↔ (∃ n, v = int n ∧ w = int n) ∨ (∃ x, v = real x ∧ w = real x) ∨
      ∃ x y, v = real x ∧ w = real y ∧ x.isNaN ∧ y.isNaN := by
  constructor
  · intro h
    cases v with
    | int n =>
      cases w with
      | int m =>
        cases h
        exact .inl ⟨n, rfl, rfl⟩
      | real y => cases h
    | real x =>
      cases w with
      | int m => cases h
      | real y =>
        rcases Binary64.canonical_eq_iff.mp (real.inj h) with rfl | hnan
        · exact .inr (.inl ⟨x, rfl, rfl⟩)
        · exact .inr (.inr ⟨x, y, rfl, rfl, hnan⟩)
  · rintro (⟨n, rfl, rfl⟩ | ⟨x, rfl, rfl⟩ | ⟨x, y, rfl, rfl, hnan⟩)
    · rfl
    · rfl
    · exact congrArg real (Binary64.canonical_eq_iff.mpr (.inr hnan))

theorem numeral_canonical (v : Value) : v.canonical.numeral = v.numeral := by
  cases v with
  | int n => rfl
  | real x =>
    cases hnan : x.isNaN with
    | true =>
      rw [canonical, Binary64.canonical_of_isNaN hnan]
      exact (x.numeral_of_isNaN hnan).symm
    | false => rw [canonical, Binary64.canonical_of_isNaN_eq_false hnan]

theorem text_eq_iff {v w : Value} : v.text = w.text ↔ v.canonical = w.canonical := by
  rw [text, text, String.ofList_inj]
  constructor
  · intro h
    have hread := v.read?_numeral
    rw [h, w.read?_numeral] at hread
    exact (Option.some.inj hread).symm
  · intro h
    rw [← v.numeral_canonical, h, w.numeral_canonical]

-- A text determines its value, but for the NaNs. That of an integer or of a number that is no NaN
-- reads back as it. The decimal in the text of a finite number is close enough to the number
-- to be rounded to it and to no other one.
theorem text_reads_back_and_text_eq_iff :
    (∀ x : Binary64, x.isNaN = false → Binary64.read? (real x).text.toList = some x) ∧
    (∀ x : Binary64, x.isFinite → ∃ magnitude d,
      (real x).text.toList = (if x.isNegative then ['-'] else []) ++ magnitude ∧
      Decimal.read? magnitude = some d ∧
      ∀ y : Binary64, y = x ↔ y.isNegative = x.isNegative ∧ y.IsNearest d.value) ∧
    (∀ n : Int64, Decimal.readInt? (int n).text.toList = some n.toInt) ∧
    (∀ v w : Value, v.text = w.text ↔ (∃ n, v = int n ∧ w = int n) ∨
      (∃ x, v = real x ∧ w = real x) ∨
      ∃ x y, v = real x ∧ w = real y ∧ x.isNaN ∧ y.isNaN) ∧
    ∀ (n : Int64) (x : Binary64), (int n).text ≠ (real x).text := by
  have hlist (v : Value) : v.text.toList = v.numeral := String.toList_ofList
  simp only [hlist]
  refine ⟨fun x hnan => ?_, fun x => Binary64.exists_decimal_of_isFinite,
    fun n => Decimal.readInt?_ofInt n.toInt, fun v w => text_eq_iff.trans canonical_eq_iff,
    fun n x h => ?_⟩
  · exact x.read?_numeral.trans (congrArg some (Binary64.canonical_of_isNaN_eq_false hnan))
  · cases text_eq_iff.mp h

-- The negative number closest to zero, a subnormal one.
theorem text_reads_back_at_least_subnormal :
    let x : Binary64 := ⟨0x8000000000000001⟩
    x.isNaN = false ∧ x.isFinite ∧ (real x).text = "-5e-324" ∧
      Binary64.read? "-5e-324".toList = some x ∧
      ∃ magnitude d, "-5e-324".toList = '-' :: magnitude ∧
        Decimal.read? magnitude = some d ∧
        ∀ y : Binary64, y = x ↔ y.isNegative ∧ y.IsNearest d.value := by
  have htext : (real ⟨0x8000000000000001⟩).text = "-5e-324" := by decide +kernel
  have hnan : (⟨0x8000000000000001⟩ : Binary64).isNaN = false := by decide
  have hfinite : (⟨0x8000000000000001⟩ : Binary64).isFinite := by decide
  have hread := text_reads_back_and_text_eq_iff.1 _ hnan
  have hdecimal := text_reads_back_and_text_eq_iff.2.1 _ hfinite
  rw [htext] at hread hdecimal
  exact ⟨hnan, hfinite, htext, hread, hdecimal⟩

end Value

end ArithTree
