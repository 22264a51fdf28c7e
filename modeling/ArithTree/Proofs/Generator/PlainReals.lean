import ArithTree.Proofs.Generator.Values

namespace ArithTree.Value

open Draw Binary64

-- The part of a word that makes a fraction.
def topBits (word : UInt64) : ℕ := (word >>> 11).toNat

-- The words that are not redrawn for a real. The smallest fraction of 53 bits from `10 ^ -4` on
-- is `900719925475 * 2 ^ -53`.
def IsKept (word : UInt64) : Prop := topBits word = 0 ∨ 900719925475 ≤ topBits word

instance (word : UInt64) : Decidable (IsKept word) := inferInstanceAs (Decidable (_ ∨ _))

variable {coin word : UInt64} {words rejected : Script}

theorem topBits_eq (word : UInt64) : topBits word = word.toNat / 2 ^ 11 := by
  simp [topBits, Nat.shiftRight_eq_div_pow]

theorem topBits_lt (word : UInt64) : topBits word < 2 ^ 53 := by
  have hword : word.toNat < 2 ^ 64 := word.toNat_lt
  rw [topBits_eq]
  omega

theorem read_w64 (word : UInt64) : Width.w64.read word = word.toBitVec := BitVec.setWidth_eq _

theorem plainReal?_read_of_isKept (h : IsKept word) :
    plainReal? (Width.w64.read word) = some (ofUnitFraction (topBits word)) := by
  have hbits := topBits_eq word
  rw [read_w64, plainReal?_eq_some_iff h (topBits_lt word), UInt64.toNat_toBitVec]
  omega

theorem plainReal?_read_of_not_isKept (h : ¬IsKept word) :
    plainReal? (Width.w64.read word) = none := by
  have he : 'e' ∈ (ofUnitFraction (topBits word)).numeral := by
    rw [e_mem_numeral_ofUnitFraction (topBits_lt word)]
    unfold IsKept at h
    omega
  rw [topBits_eq] at he
  rw [read_w64]
  exact if_pos he

-- The first word is the coin. A high one leaves the words behind it to a real.
theorem runOn_generate_of_le (hcoin : 2 ^ 63 ≤ coin.toNat) (words : Script) :
    (generate : Draw Script Value).runOn (coin :: words) = generateReal.runOn words := by
  have hread : ¬(Width.w64.read coin).toNat < 2 ^ 63 := by
    rw [read_w64]
    exact Nat.not_lt.mpr hcoin
  rw [generate_eq, runOn_bind, Draw.word, runOn_redraw, Script.redrawFrom_cons]
  exact congrArg (runOn · words) (if_neg hread)

theorem runOn_generateReal_of_isKept (hrejected : ∀ v ∈ rejected, ¬IsKept v)
    (hword : IsKept word) (rest : Script) :
    generateReal.runOn (rejected ++ word :: rest) =
      (some (real (ofUnitFraction (topBits word))), rest) := by
  have hredraw := runOn_redraw_accepted
    (fun v hv => plainReal?_read_of_not_isKept (hrejected v hv)) (plainReal?_read_of_isKept hword)
    rest
  rw [generateReal, runOn_bind, hredraw]
  rfl

theorem runOn_generateReal_of_rejected (hrejected : ∀ v ∈ words, ¬IsKept v) :
    generateReal.runOn words = (none, []) := by
  have hredraw := runOn_redraw_rejected fun v hv => plainReal?_read_of_not_isKept (hrejected v hv)
  rw [generateReal, runOn_bind, hredraw]

-- The text of a real has an exponent if its magnitude lies below `10 ^ -4` or reaches `10 ^ 16`,
-- zero and infinity apart. So the search for an exponent redraws the small fractions but zero:
-- after a coin for a real, the first word that is not one of those is the last that is taken, and
-- makes the real. If there is none, all words are taken for nothing.
theorem e_mem_text_iff_and_runOn_generate :
    (∀ x : Binary64, 'e' ∈ (real x).text.toList ↔
      x.isFinite ∧ x.isZero = false ∧ (x.magnitude < 1 / 10 ^ 4 ∨ 10 ^ 16 ≤ x.magnitude)) ∧
    ∀ (coin : UInt64) (words : Script), 2 ^ 63 ≤ coin.toNat →
      (∀ rejected word rest, words = rejected ++ word :: rest → (∀ v ∈ rejected, ¬IsKept v) →
        IsKept word → ∃ x : Binary64,
          x.isNegative = false ∧ x.isFinite ∧ x.magnitude = topBits word / 2 ^ 53 ∧
          (generate : Draw Script Value).runOn (coin :: words) = (some (real x), rest)) ∧
      ((∀ v ∈ words, ¬IsKept v) →
        (generate : Draw Script Value).runOn (coin :: words) = (none, [])) := by
  refine ⟨fun x => ?_, fun coin words hcoin => ⟨?_, fun hrejected => ?_⟩⟩
  · rw [toList_text]
    exact x.e_mem_numeral_iff_magnitude
  · intro rejected word rest hwords hrejected hword
    have hlt := topBits_lt word
    refine ⟨ofUnitFraction (topBits word), isNegative_ofUnitFraction hlt,
      isFinite_ofUnitFraction hlt, magnitude_ofUnitFraction hlt, ?_⟩
    rw [runOn_generate_of_le hcoin, hwords, runOn_generateReal_of_isKept hrejected hword]
  · rw [runOn_generate_of_le hcoin, runOn_generateReal_of_rejected hrejected]

-- The largest word that is redrawn and the smallest that is kept, zero apart.
theorem runOn_generate_at_threshold :
    let coin : UInt64 := 9223372036854775808
    let rejected : Script := [1844674407372799]
    let word : UInt64 := 1844674407372800
    2 ^ 63 ≤ coin.toNat ∧ (∀ v ∈ rejected, ¬IsKept v) ∧ IsKept word ∧
    (generate : Draw Script Value).runOn (coin :: rejected) = (none, []) ∧
    ∃ x : Binary64,
      (x.isNegative = false ∧ x.isFinite ∧ x.magnitude = 900719925475 / 2 ^ 53 ∧
        (generate : Draw Script Value).runOn (coin :: rejected ++ [word, 7]) =
          (some (real x), [7])) ∧
      'e' ∉ (real x).text.toList := by
  intro coin rejected word
  have hcoin : 2 ^ 63 ≤ coin.toNat := by decide
  have hrejected : ∀ v ∈ rejected, ¬IsKept v := by
    intro v hv
    obtain rfl := List.mem_singleton.mp hv
    decide
  have hword : IsKept word := by decide
  obtain ⟨htext, hruns⟩ := e_mem_text_iff_and_runOn_generate
  obtain ⟨-, hnone⟩ := hruns coin rejected hcoin
  obtain ⟨hsome, -⟩ := hruns coin (rejected ++ word :: [7]) hcoin
  obtain ⟨x, hsign, hfinite, hmagnitude, hrun⟩ := hsome rejected word [7] rfl hrejected hword
  have hbits : topBits word = 900719925475 := by decide
  rw [hbits] at hmagnitude
  refine ⟨hcoin, hrejected, hword, hnone hrejected, x, ⟨hsign, hfinite, hmagnitude, hrun⟩, ?_⟩
  rw [htext, hmagnitude]
  norm_num

end ArithTree.Value
