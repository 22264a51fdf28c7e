import ArithTree.Proofs.Decimal.Numeral
import ArithTree.Proofs.Decimal.Shortest
import ArithTree.Value

namespace ArithTree

namespace Value

-- The text of a finite number other than zero is that of a decimal to which the number is nearest.
-- No decimal with fewer digits is such a one. None with as many digits is closer to the number,
-- and one that is as close is lower.
theorem text_shortest_and_preferred {x : Binary64} (hfinite : x.isFinite)
    (hzero : x.isZero = false) :
    ∃ (magnitude : List Char) (d s : Decimal),
      (real x).text.toList = (if x.isNegative then ['-'] else []) ++ magnitude ∧
      Decimal.read? magnitude = some d ∧ d.value = s.value ∧ ¬10 ∣ s.digits ∧
      x.IsNearest d.value ∧
      (∀ d' : Decimal, d'.length < s.length → ¬x.IsNearest d'.value) ∧
      ∀ d' : Decimal, d'.length = s.length → x.IsNearest d'.value →
        Preferred x.magnitude d.value d'.value := by
  have hnan := x.isNaN_eq_false_of_isFinite hfinite
  obtain ⟨d, hread, hnearest, hshortest⟩ :=
    (x.spells_magnitudeNumeral hnan).exists_read?_isNearest hfinite
  have hvalue := hshortest hzero
  have htext : (real x).text.toList = x.numeral := String.toList_ofList
  refine ⟨x.magnitudeNumeral, d, x.shortest, ?_, hread, hvalue,
    Binary64.not_dvd_digits_shortest hzero, hnearest, fun d' hlength hd' => ?_,
    fun d' hlength hd' => ?_⟩
  · rw [htext, x.numeral_of_isNaN_eq_false hnan]
  · exact Nat.not_le.mpr hlength (Binary64.length_shortest_le hfinite hzero hd')
  · rw [hvalue]
    exact Binary64.preferred_shortest hfinite hzero hd' hlength.le

-- The second smallest positive number. Nine tenths of the power of ten that is its text read back
-- as it too, and they lie on a finer grid, but farther away.
theorem text_preferred_to_nine_tenths :
    let x : Binary64 := ⟨2⟩
    x.isFinite ∧ x.isZero = false ∧ (real x).text = "1e-323" ∧
      x.IsNearest (Decimal.value ⟨9, -324⟩) ∧
      Preferred x.magnitude (Decimal.value ⟨1, -323⟩) (Decimal.value ⟨9, -324⟩) := by
  intro x
  have hfinite : x.isFinite := by decide
  have hzero : x.isZero = false := by decide
  have htext : (real x).text = "1e-323" := by decide +kernel
  have hrival : x.IsNearest (Decimal.value ⟨9, -324⟩) :=
    (Decimal.nearest_eq_iff.mp (by decide +kernel : Decimal.nearest false ⟨9, -324⟩ = x)).2
  obtain ⟨magnitude, d, s, hmagnitude, hread, -, -, hnearest, hshort, hprefer⟩ :=
    text_shortest_and_preferred hfinite hzero
  have hd : d = ⟨1, -323⟩ := by
    rw [htext] at hmagnitude
    have hsign : x.isNegative = false := by decide
    rw [hsign, if_neg Bool.false_ne_true, List.nil_append] at hmagnitude
    rw [← hmagnitude] at hread
    exact Option.some.inj (hread.symm.trans (by decide))
  subst hd
  have hlength : Decimal.length ⟨9, -324⟩ = s.length := by
    have hle := Nat.le_of_not_lt fun hlt => hshort _ hlt hnearest
    have hpos : 0 < s.length := Nat.length_toDigits_pos
    have hone : Decimal.length ⟨1, -323⟩ = 1 := rfl
    have hone' : Decimal.length ⟨9, -324⟩ = 1 := rfl
    omega
  exact ⟨hfinite, hzero, htext, hrival, hprefer _ hlength hrival⟩

-- Two decimals of sixteen digits are equally near to this number.
example : (real ⟨0x3fe9905000000000⟩).text = "0.7988662719726563" := by decide +kernel

end Value

end ArithTree
