import ArithTree.Expr.Reader
import ArithTree.Proofs.Decimal.Numeral

namespace ArithTree.Value

-- The value with a plain NaN in place of any other.
def canonical : Value → Value
  | int n => int n
  | real x => real x.canonical

-- A value reads back from its text, and the text shows whether it is an integer.
theorem read?_numeral (v : Value) : read? v.numeral = some v.canonical := by
  cases v with
  | int n =>
    have hrange : Int64.minValue.toInt ≤ n.toInt ∧ n.toInt ≤ Int64.maxValue.toInt :=
      ⟨n.minValue_le_toInt, n.toInt_le⟩
    simp only [numeral, read?, Decimal.readInt?_ofInt, if_pos hrange, Int64.ofInt_toInt, canonical]
  | real x =>
    obtain ⟨c, hc, hdigit, hminus⟩ := x.exists_mem_numeral_not_isDigit
    simp only [numeral, read?, Decimal.readInt?_eq_none hc hdigit hminus, x.read?_numeral,
      Option.map_some, canonical]

theorem numeral_ne_nil (v : Value) : v.numeral ≠ [] := by
  intro hnil
  have hread := v.read?_numeral
  rw [hnil, show read? [] = none from rfl] at hread
  cases hread

theorem numeral_chars (v : Value) {c : Char} (h : c ∈ v.numeral) : Binary64.isNumeralChar c := by
  cases v with
  | int n =>
    rcases Decimal.ofInt_chars h with h | rfl
    · simp [Binary64.isNumeralChar, h]
    · rfl
  | real x => exact x.numeral_chars h

end ArithTree.Value
