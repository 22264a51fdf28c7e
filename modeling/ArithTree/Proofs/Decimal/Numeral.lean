import ArithTree.Proofs.Decimal.Layout
import ArithTree.Proofs.Decimal.ReadBack

namespace ArithTree

namespace Decimal

variable (d : Decimal)

theorem isDigit_of_mem_toDigits {n : ℕ} {c : Char} (h : c ∈ Nat.toDigits 10 n) : c.isDigit :=
  List.all_eq_true.mp (all_isDigit_toDigits n) c h

theorem positional_chars {c : Char} (h : c ∈ d.positional) : c.isDigit ∨ c = '.' := by
  simp only [positional] at h
  split at h
  · simp only [List.mem_cons, List.mem_append, List.mem_replicate] at h
    rcases h with rfl | rfl | ⟨-, rfl⟩ | h
    · exact .inl rfl
    · exact .inr rfl
    · exact .inl rfl
    · exact .inl (isDigit_of_mem_toDigits h)
  · split at h
    · rcases List.mem_append.mp h with h | h
      · exact .inl (isDigit_of_mem_toDigits (List.mem_of_mem_take h))
      · rcases List.mem_cons.mp h with rfl | h
        · exact .inr rfl
        · exact .inl (isDigit_of_mem_toDigits (List.mem_of_mem_drop h))
    · simp only [List.mem_append, List.mem_replicate, List.mem_cons, List.not_mem_nil,
        or_false] at h
      rcases h with (h | ⟨-, rfl⟩) | rfl | rfl
      · exact .inl (isDigit_of_mem_toDigits h)
      · exact .inl rfl
      · exact .inr rfl
      · exact .inl rfl

theorem ofInt_chars {n : ℤ} {c : Char} (h : c ∈ ofInt n) : c.isDigit ∨ c = '-' := by
  simp only [ofInt] at h
  split at h
  · rcases List.mem_cons.mp h with rfl | h
    · exact .inr rfl
    · exact .inl (isDigit_of_mem_toDigits h)
  · exact .inl (isDigit_of_mem_toDigits h)

theorem scientific_chars {c : Char} (h : c ∈ d.scientific) :
    c.isDigit ∨ c = '.' ∨ c = 'e' ∨ c = '-' := by
  simp only [scientific] at h
  rcases List.mem_append.mp h with h | h
  · split at h
    · exact .inl (isDigit_of_mem_toDigits h)
    · rcases List.mem_append.mp h with h | h
      · exact .inl (isDigit_of_mem_toDigits (List.mem_of_mem_take h))
      · rcases List.mem_cons.mp h with rfl | h
        · exact .inr (.inl rfl)
        · exact .inl (isDigit_of_mem_toDigits (List.mem_of_mem_drop h))
  · rcases List.mem_cons.mp h with rfl | h
    · exact .inr (.inr (.inl rfl))
    · rcases ofInt_chars h with h | rfl
      · exact .inl h
      · exact .inr (.inr (.inr rfl))

theorem point_mem_positional : '.' ∈ d.positional := by
  simp only [positional]
  split
  · simp
  · split <;> simp

theorem e_mem_scientific : 'e' ∈ d.scientific := by simp [scientific]

theorem e_notMem_positional : 'e' ∉ d.positional := by
  intro h
  rcases d.positional_chars h with h | h <;> simp at h

theorem isDigit_of_read? {c : Char} {cs : List Char} {d : Decimal}
    (h : read? (c :: cs) = some d) : c.isDigit := by
  by_contra hc
  rw [Bool.not_eq_true] at hc
  have htake : (c :: cs).takeWhile Char.isDigit = [] := by simp [hc]
  simp only [read?, htake] at h
  split at h <;> simp at h

end Decimal

namespace Binary64

variable (x : Binary64)

theorem isFinite_of_isNaN_eq_false (hnan : x.isNaN = false) (hinf : x.isInfinite = false) :
    x.isFinite := by
  rw [← Bool.not_eq_true, isNaN_iff] at hnan
  rw [← Bool.not_eq_true, isInfinite_iff] at hinf
  rw [isFinite_iff]
  omega

theorem not_isFinite_of_isInfinite (hinf : x.isInfinite) : ¬x.isFinite := by
  rw [isFinite_iff, x.isInfinite_iff.mp hinf]
  exact Nat.lt_irrefl _

theorem isFinite_of_isZero (hzero : x.isZero) : x.isFinite := by
  rw [isFinite_iff, x.isZero_iff.mp hzero]
  decide

theorem not_isFinite_of_isNaN (hnan : x.isNaN) : ¬x.isFinite := by
  have hrank := x.isNaN_iff.mp hnan
  rw [isFinite_iff]
  omega

theorem isNaN_eq_false_of_isFinite (hfinite : x.isFinite) : x.isNaN = false := by
  rw [← Bool.not_eq_true]
  exact fun hnan => x.not_isFinite_of_isNaN hnan hfinite

-- The ways to write a magnitude, each with the numbers that are written so.
inductive Spells : List Char → Prop
  | infinity (hinf : x.isInfinite) : Spells ['i', 'n', 'f']
  | zero (hzero : x.isZero) : Spells ['0', '.', '0']
  | positional (hfinite : x.isFinite) (hzero : x.isZero = false) (hplain : x.isPositional) :
      Spells x.shortest.positional
  | scientific (hfinite : x.isFinite) (hzero : x.isZero = false) (hplain : x.isPositional = false) :
      Spells x.shortest.scientific

theorem spells_magnitudeNumeral (hnan : x.isNaN = false) : x.Spells x.magnitudeNumeral := by
  rw [magnitudeNumeral]
  split
  next hinf => exact .infinity hinf
  next hinf =>
    rw [Bool.not_eq_true] at hinf
    have hfinite := x.isFinite_of_isNaN_eq_false hnan hinf
    split
    next hzero => exact .zero hzero
    next hzero =>
      rw [Bool.not_eq_true] at hzero
      split
      next hplain => exact .positional hfinite hzero hplain
      next hplain => exact .scientific hfinite hzero (Bool.not_eq_true _ ▸ hplain)

variable {x}

theorem isNearest_zero (hzero : x.isZero) : x.IsNearest (Decimal.value ⟨0, -1⟩) := by
  have hrank := x.isZero_iff.mp hzero
  have hmagnitude : x.magnitude = Decimal.value ⟨0, -1⟩ := by
    simp [magnitude, units_eq_unitsAt, hrank, unitsAt, Decimal.value]
  rw [← hmagnitude]
  exact isNearest_magnitude (x.isNaN_eq_false_iff.mpr (hrank ▸ Nat.zero_le _))

-- The text of a finite magnitude is a decimal to which the number is nearest. The layout leaves
-- the value of the shortest decimal as it is.
theorem Spells.exists_read?_isNearest {cs : List Char} (h : x.Spells cs) (hfinite : x.isFinite) :
    ∃ d, Decimal.read? cs = some d ∧ x.IsNearest d.value ∧
      (x.isZero = false → d.value = x.shortest.value) := by
  cases h with
  | infinity hinf => exact absurd hfinite (x.not_isFinite_of_isInfinite hinf)
  | zero hzero => exact ⟨⟨0, -1⟩, rfl, isNearest_zero hzero, by simp [hzero]⟩
  | positional _ hzero =>
    obtain ⟨d, hread, hvalue⟩ := Decimal.read?_positional x.shortest
    exact ⟨d, hread, hvalue ▸ isNearest_shortest hfinite hzero, fun _ => hvalue⟩
  | scientific _ hzero =>
    obtain ⟨d, hread, hvalue⟩ := Decimal.read?_scientific x.shortest
    exact ⟨d, hread, hvalue ▸ isNearest_shortest hfinite hzero, fun _ => hvalue⟩

theorem readMagnitude?_eq_of_read? {negative : Bool} {cs : List Char} {d : Decimal}
    (h : Decimal.read? cs = some d) : readMagnitude? negative cs = some (d.nearest negative) := by
  have hne : cs ≠ ['i', 'n', 'f'] := by
    rintro rfl
    have hnone : Decimal.read? ['i', 'n', 'f'] = none := rfl
    simp [hnone] at h
  rw [readMagnitude?, if_neg hne, h, Option.map_some]

-- The text of a magnitude reads back as the magnitude, with the sign that it is given.
theorem Spells.readMagnitude? {cs : List Char} (h : x.Spells cs) :
    readMagnitude? x.isNegative cs = some x := by
  by_cases hfinite : x.isFinite
  · obtain ⟨d, hread, hnearest, -⟩ := h.exists_read?_isNearest hfinite
    rw [readMagnitude?_eq_of_read? hread, Decimal.nearest_eq_iff.mpr ⟨rfl, hnearest⟩]
  · cases h with
    | infinity hinf =>
      rw [Binary64.readMagnitude?, if_pos rfl, Binary64.infinity, ← x.isInfinite_iff.mp hinf,
        ofRank_rank]
    | zero hzero => exact absurd (x.isFinite_of_isZero hzero) hfinite
    | positional h => exact absurd h hfinite
    | scientific h => exact absurd h hfinite

theorem readMagnitude?_eq_some_cons {negative : Bool} {cs : List Char} {y : Binary64}
    (h : readMagnitude? negative cs = some y) :
    ∃ c rest, cs = c :: rest ∧ (c.isDigit ∨ c = 'i') := by
  rw [readMagnitude?] at h
  split at h
  next hinf => exact ⟨'i', ['n', 'f'], hinf, .inr rfl⟩
  next =>
    obtain ⟨d, hd, -⟩ := Option.map_eq_some_iff.mp h
    cases cs with
    | nil => exact absurd hd (by simp [Decimal.read?, Decimal.readExponent?])
    | cons c rest => exact ⟨c, rest, rfl, .inl (Decimal.isDigit_of_read? hd)⟩

def isNumeralChar (c : Char) : Bool :=
  c.isDigit || ['.', 'e', '-', 'i', 'n', 'f', 'N', 'a'].contains c

theorem isNumeralChar_of_isDigit {c : Char} (h : c.isDigit) : isNumeralChar c := by
  simp [isNumeralChar, h]

theorem Spells.isNumeralChar {cs : List Char} (h : x.Spells cs) {c : Char} (hc : c ∈ cs) :
    isNumeralChar c := by
  cases h with
  | infinity => exact List.all_eq_true.mp (by decide : ['i', 'n', 'f'].all _) c hc
  | zero => exact List.all_eq_true.mp (by decide : ['0', '.', '0'].all _) c hc
  | positional =>
    rcases x.shortest.positional_chars hc with hc | rfl
    · exact isNumeralChar_of_isDigit hc
    · rfl
  | scientific =>
    rcases x.shortest.scientific_chars hc with hc | rfl | rfl | rfl
    · exact isNumeralChar_of_isDigit hc
    · rfl
    · rfl
    · rfl

-- No magnitude looks like a whole number.
theorem Spells.exists_mem_not_isDigit {cs : List Char} (h : x.Spells cs) :
    ∃ c ∈ cs, c.isDigit = false ∧ c ≠ '-' := by
  cases h with
  | infinity => exact ⟨'i', by simp, rfl, by decide⟩
  | zero => exact ⟨'.', by simp, rfl, by decide⟩
  | positional => exact ⟨'.', x.shortest.point_mem_positional, rfl, by decide⟩
  | scientific => exact ⟨'e', x.shortest.e_mem_scientific, rfl, by decide⟩

theorem Spells.e_mem_iff {cs : List Char} (h : x.Spells cs) :
    'e' ∈ cs ↔ x.isFinite ∧ x.isZero = false ∧ x.isPositional = false := by
  cases h with
  | infinity hinf => simp [x.not_isFinite_of_isInfinite hinf]
  | zero hzero => simp [hzero]
  | positional hfinite hzero hplain => simp [x.shortest.e_notMem_positional, hplain]
  | scientific hfinite hzero hplain =>
    simp [x.shortest.e_mem_scientific, hfinite, hzero, hplain]

variable (x)

-- The number with the plain NaN in place of any other.
def canonical : Binary64 := if x.isNaN then nan else x

theorem numeral_of_isNaN (hnan : x.isNaN) : x.numeral = ['N', 'a', 'N'] := if_pos hnan

theorem numeral_of_isNaN_eq_false (hnan : x.isNaN = false) :
    x.numeral = (if x.isNegative then ['-'] else []) ++ x.magnitudeNumeral := by
  rw [numeral, hnan]
  cases x.isNegative <;> rfl

theorem read?_numeral : read? x.numeral = some x.canonical := by
  rw [canonical]
  cases hnan : x.isNaN with
  | true =>
    rw [x.numeral_of_isNaN hnan]
    rfl
  | false =>
    have hread := (x.spells_magnitudeNumeral hnan).readMagnitude?
    rw [x.numeral_of_isNaN_eq_false hnan]
    cases hsign : x.isNegative with
    | true =>
      rw [hsign] at hread
      exact hread
    | false =>
      obtain ⟨c, rest, hcons, hc⟩ := readMagnitude?_eq_some_cons hread
      have hN : c ≠ 'N' := by
        rintro rfl
        simp at hc
      have hminus : c ≠ '-' := by
        rintro rfl
        simp at hc
      rw [hsign, hcons] at hread
      simpa [hcons, read?, hN, hminus] using hread

theorem numeral_chars {c : Char} (h : c ∈ x.numeral) : isNumeralChar c := by
  cases hnan : x.isNaN with
  | true =>
    rw [x.numeral_of_isNaN hnan] at h
    exact List.all_eq_true.mp (by decide : ['N', 'a', 'N'].all _) c h
  | false =>
    rw [x.numeral_of_isNaN_eq_false hnan] at h
    rcases List.mem_append.mp h with h | h
    · split at h
      · rw [List.mem_singleton.mp h]
        rfl
      · cases h
    · exact (x.spells_magnitudeNumeral hnan).isNumeralChar h

theorem exists_mem_numeral_not_isDigit :
    ∃ c ∈ x.numeral, c.isDigit = false ∧ c ≠ '-' := by
  cases hnan : x.isNaN with
  | true =>
    rw [x.numeral_of_isNaN hnan]
    exact ⟨'N', by simp, rfl, by decide⟩
  | false =>
    rw [x.numeral_of_isNaN_eq_false hnan]
    obtain ⟨c, hc, hdigit, hminus⟩ := (x.spells_magnitudeNumeral hnan).exists_mem_not_isDigit
    exact ⟨c, List.mem_append_right _ hc, hdigit, hminus⟩

-- The text has an exponent exactly beyond the range of the positional form.
theorem e_mem_numeral_iff :
    'e' ∈ x.numeral ↔ x.isFinite ∧ x.isZero = false ∧ x.isPositional = false := by
  cases hnan : x.isNaN with
  | true =>
    rw [x.numeral_of_isNaN hnan]
    simp [x.not_isFinite_of_isNaN hnan]
  | false =>
    have hsign : 'e' ∉ if x.isNegative then ['-'] else [] := by split <;> simp
    rw [x.numeral_of_isNaN_eq_false hnan, List.mem_append, or_iff_right hsign]
    exact (x.spells_magnitudeNumeral hnan).e_mem_iff

end Binary64

end ArithTree
