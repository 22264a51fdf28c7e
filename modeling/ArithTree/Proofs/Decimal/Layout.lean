import ArithTree.Decimal.Reader
import ArithTree.Proofs.Decimal.Window

namespace ArithTree.Decimal

theorem all_isDigit_toDigits (n : ℕ) : (Nat.toDigits 10 n).all Char.isDigit := by
  rw [List.all_eq_true]
  exact fun c hc => Nat.isDigit_of_mem_toDigits (by decide) (by decide) hc

theorem all_isDigit_take {digits : List Char} (h : digits.all Char.isDigit) (count : ℕ) :
    (digits.take count).all Char.isDigit :=
  List.all_eq_true.mpr fun c hc => List.all_eq_true.mp h c (List.mem_of_mem_take hc)

theorem all_isDigit_drop {digits : List Char} (h : digits.all Char.isDigit) (count : ℕ) :
    (digits.drop count).all Char.isDigit :=
  List.all_eq_true.mpr fun c hc => List.all_eq_true.mp h c (List.mem_of_mem_drop hc)

theorem readNat?_toDigits (n : ℕ) : readNat? (Nat.toDigits 10 n) = some n := by
  rw [readNat?, if_pos ⟨Nat.toDigits_ne_nil, all_isDigit_toDigits n⟩,
    Nat.ofDigitChars_ten_toDigits]

theorem readNat?_eq_none {cs : List Char} {c : Char} (hc : c ∈ cs) (hdigit : c.isDigit = false) :
    readNat? cs = none := by
  rw [readNat?, if_neg]
  rintro ⟨-, hall⟩
  simp [List.all_eq_true.mp hall c hc] at hdigit

theorem readInt?_minus (cs : List Char) :
    readInt? ('-' :: cs) = (readNat? cs).map fun n : ℕ => -(n : ℤ) := by
  cases h : readNat? cs <;> simp [readInt?, h]

theorem readInt?_of_ne {c : Char} (hc : c ≠ '-') (cs : List Char) :
    readInt? (c :: cs) = (readNat? (c :: cs)).map fun n : ℕ => (n : ℤ) := by
  cases h : readNat? (c :: cs) <;> simp [readInt?, hc, h]

theorem readInt?_eq_none {cs : List Char} {c : Char} (hc : c ∈ cs) (hdigit : c.isDigit = false)
    (hminus : c ≠ '-') : readInt? cs = none := by
  cases cs with
  | nil => simp at hc
  | cons first cs =>
    by_cases hfirst : first = '-'
    · subst hfirst
      have hrest : c ∈ cs := (List.mem_cons.mp hc).resolve_left hminus
      rw [readInt?_minus, readNat?_eq_none hrest hdigit, Option.map_none]
    · rw [readInt?_of_ne hfirst, readNat?_eq_none hc hdigit, Option.map_none]

theorem exists_digit_cons_toDigits (n : ℕ) :
    ∃ c cs, Nat.toDigits 10 n = c :: cs ∧ c.isDigit := by
  obtain ⟨c, cs, hdigits⟩ := List.exists_cons_of_ne_nil
    (Nat.toDigits_ne_nil : Nat.toDigits 10 n ≠ [])
  refine ⟨c, cs, hdigits, List.all_eq_true.mp (all_isDigit_toDigits n) c ?_⟩
  rw [hdigits]
  exact List.mem_cons_self

theorem ne_of_isDigit {c c' : Char} (hc : c.isDigit) (hc' : c'.isDigit = false) : c ≠ c' := by
  rintro rfl
  simp [hc] at hc'

theorem readInt?_ofInt (n : ℤ) : readInt? (ofInt n) = some n := by
  rw [ofInt]
  split
  next hneg =>
    rw [readInt?_minus, readNat?_toDigits, Option.map_some]
    congr 1
    omega
  next hnonneg =>
    obtain ⟨c, cs, hdigits, hdigit⟩ := exists_digit_cons_toDigits n.natAbs
    rw [hdigits, readInt?_of_ne (ne_of_isDigit hdigit rfl), ← hdigits, readNat?_toDigits,
      Option.map_some]
    congr 1
    omega

theorem read?_point {whole fraction tail : List Char} {exponent : ℤ}
    (hwhole : whole.all Char.isDigit) (hwhole' : whole ≠ [])
    (hfraction : fraction.all Char.isDigit) (hfraction' : fraction ≠ [])
    (htail : tail.head?.all fun c => !c.isDigit) (hexponent : readExponent? tail = some exponent) :
    read? (whole ++ '.' :: (fraction ++ tail)) =
      some ⟨Nat.ofDigitChars 10 (whole ++ fraction) 0, exponent - fraction.length⟩ := by
  have htake : tail.takeWhile Char.isDigit = [] := by
    cases tail with
    | nil => rfl
    | cons c tail => simp_all
  have hdrop : tail.dropWhile Char.isDigit = tail := by
    cases tail with
    | nil => rfl
    | cons c tail => simp_all
  have hwholes := List.all_eq_true.mp hwhole
  have hfractions := List.all_eq_true.mp hfraction
  simp only [read?]
  rw [List.takeWhile_append_of_pos hwholes, List.dropWhile_append_of_pos hwholes,
    List.takeWhile_cons_of_neg (by decide), List.dropWhile_cons_of_neg (by decide)]
  simp only [List.append_nil]
  rw [List.takeWhile_append_of_pos hfractions, List.dropWhile_append_of_pos hfractions, htake,
    hdrop, hexponent]
  simp [hwhole', hfraction']

theorem read?_no_point {whole tail : List Char} {exponent : ℤ}
    (hwhole : whole.all Char.isDigit) (hwhole' : whole ≠ [])
    (htail : tail.head?.all fun c => !c.isDigit && c != '.')
    (hexponent : readExponent? tail = some exponent) :
    read? (whole ++ tail) = some ⟨Nat.ofDigitChars 10 whole 0, exponent⟩ := by
  have hwholes := List.all_eq_true.mp hwhole
  simp only [read?]
  rw [List.takeWhile_append_of_pos hwholes, List.dropWhile_append_of_pos hwholes]
  cases tail with
  | nil => simp [hexponent, hwhole']
  | cons c tail =>
    simp only [List.head?_cons, Option.all_some, Bool.and_eq_true, bne_iff_ne, ne_eq,
      Bool.not_eq_true'] at htail
    rw [List.takeWhile_cons_of_neg (by simp [htail.1]), List.dropWhile_cons_of_neg
      (by simp [htail.1])]
    simp [htail.2, hexponent, hwhole']

theorem read?_point_end {whole fraction : List Char} (hwhole : whole.all Char.isDigit)
    (hwhole' : whole ≠ []) (hfraction : fraction.all Char.isDigit) (hfraction' : fraction ≠ []) :
    read? (whole ++ '.' :: fraction) =
      some ⟨Nat.ofDigitChars 10 (whole ++ fraction) 0, -(fraction.length : ℤ)⟩ := by
  have hread := @read?_point whole fraction [] 0 hwhole hwhole' hfraction hfraction' rfl rfl
  simpa using hread

-- Both layouts read back as decimals of the same value. Zeros that only fill places may
-- have become digits on the way.
theorem read?_positional (d : Decimal) :
    ∃ d', read? d.positional = some d' ∧ d'.value = d.value := by
  have hdigits := all_isDigit_toDigits d.digits
  have hne : Nat.toDigits 10 d.digits ≠ [] := Nat.toDigits_ne_nil
  have hpoint : d.pointPosition = (Nat.toDigits 10 d.digits).length + d.exponent := rfl
  have hnumber : Nat.ofDigitChars 10 (Nat.toDigits 10 d.digits) 0 = d.digits :=
    Nat.ofDigitChars_ten_toDigits
  simp only [positional]
  generalize Nat.toDigits 10 d.digits = digits at *
  split
  next hleft =>
    -- all digits stand behind the point
    refine ⟨d, ?_, rfl⟩
    have hzeros : (List.replicate (-d.pointPosition).toNat '0' ++ digits).all Char.isDigit := by
      simp [hdigits]
    have hread := @read?_point_end ['0'] _ rfl (by simp) hzeros (by simp [hne])
    rw [List.singleton_append] at hread
    rw [hread]
    congr 2
    · simp [Nat.ofDigitChars_append, Nat.ofDigitChars_cons, hnumber]
    · simp only [List.length_append, List.length_replicate]
      omega
  next hright =>
    split
    next hinside =>
      refine ⟨d, ?_, rfl⟩
      have htake := all_isDigit_take hdigits d.pointPosition.toNat
      have hdrop := all_isDigit_drop hdigits d.pointPosition.toNat
      rw [read?_point_end htake (by simp [hne]; omega) hdrop (by simpa using hinside),
        List.take_append_drop, hnumber, List.length_drop]
      congr 2
      omega
    next houtside =>
      -- places are left over before the point
      have hwhole : (digits ++
          List.replicate (d.pointPosition.toNat - digits.length) '0').all Char.isDigit := by
        simp [hdigits]
      refine ⟨_, read?_point_end hwhole (by simp [hne]) rfl (by simp), ?_⟩
      obtain ⟨places, hplaces⟩ : ∃ places : ℕ, d.exponent = places :=
        ⟨d.exponent.toNat, by omega⟩
      have hzeros : d.pointPosition.toNat - digits.length = places := by omega
      simp only [Nat.ofDigitChars_append, hnumber, hzeros, Nat.ofDigitChars_replicate_zero,
        value, hplaces]
      simp [Nat.ofDigitChars_cons]
      ring

theorem read?_scientific (d : Decimal) :
    ∃ d', read? d.scientific = some d' ∧ d'.value = d.value := by
  refine ⟨d, ?_, rfl⟩
  have hdigits := all_isDigit_toDigits d.digits
  have hpos : 0 < (Nat.toDigits 10 d.digits).length := Nat.length_toDigits_pos
  have hpoint : d.pointPosition = (Nat.toDigits 10 d.digits).length + d.exponent := rfl
  have hnumber : Nat.ofDigitChars 10 (Nat.toDigits 10 d.digits) 0 = d.digits :=
    Nat.ofDigitChars_ten_toDigits
  have hexponent : readExponent? ('e' :: ofInt (d.pointPosition - 1)) =
      some (d.pointPosition - 1) := readInt?_ofInt _
  simp only [scientific]
  generalize Nat.toDigits 10 d.digits = digits at *
  split
  next hone =>
    rw [read?_no_point hdigits (by rintro rfl; simp at hpos) rfl hexponent, hnumber]
    congr 2
    omega
  next hmore =>
    have htake := all_isDigit_take hdigits 1
    have hdrop := all_isDigit_drop hdigits 1
    have htake' : digits.take 1 ≠ [] := by
      rw [← List.length_pos_iff, List.length_take]
      omega
    have hdrop' : digits.drop 1 ≠ [] := by
      rw [← List.length_pos_iff, List.length_drop]
      omega
    rw [List.append_assoc, List.cons_append, read?_point htake htake' hdrop hdrop' rfl hexponent,
      List.take_append_drop, hnumber, List.length_drop]
    congr 2
    omega

end ArithTree.Decimal
