import ArithTree.Proofs.Binary64.UnitFraction
import ArithTree.Proofs.Generator.Compositional
import ArithTree.Proofs.Random.Bounded

namespace ArithTree

open Draw Script

namespace Binary64

-- A fraction of 53 bits, without a sign, whose text has no exponent.
def IsPlainFraction (x : Binary64) : Prop :=
  x.isNegative = false ∧ x.isFinite ∧
    ∃ k : ℕ, (k = 0 ∨ 900719925475 ≤ k) ∧ k < 2 ^ 53 ∧ x.magnitude = k / 2 ^ 53

theorem magnitude_ofUnitFraction {k : ℕ} (hlt : k < 2 ^ 53) :
    (ofUnitFraction k).magnitude = k / 2 ^ 53 := by
  have hone : (unitsPerOne : ℚ) ≠ 0 := Nat.cast_ne_zero.mpr unitsPerOne_pos.ne'
  have htwo : (2 ^ 53 : ℚ) ≠ 0 := by norm_num
  rw [magnitude, div_eq_div_iff hone htwo]
  exact_mod_cast units_ofUnitFraction hlt

theorem eq_of_magnitude_eq {x y : Binary64} (hsign : x.isNegative = y.isNegative)
    (hmagnitude : x.magnitude = y.magnitude) : x = y := by
  have hone : (unitsPerOne : ℚ) ≠ 0 := Nat.cast_ne_zero.mpr unitsPerOne_pos.ne'
  rw [magnitude, magnitude, div_left_inj' hone] at hmagnitude
  exact eq_of_units_eq hsign (Nat.cast_injective hmagnitude)

theorem isPlainFraction_ofUnitFraction {k : ℕ} (hplain : k = 0 ∨ 900719925475 ≤ k)
    (hlt : k < 2 ^ 53) : (ofUnitFraction k).IsPlainFraction :=
  ⟨isNegative_ofUnitFraction hlt, isFinite_ofUnitFraction hlt, k, hplain, hlt,
    magnitude_ofUnitFraction hlt⟩

theorem isPlainFraction_iff {x : Binary64} :
    x.IsPlainFraction ↔
      ∃ k, (k = 0 ∨ 900719925475 ≤ k) ∧ k < 2 ^ 53 ∧ x = ofUnitFraction k := by
  constructor
  · rintro ⟨hsign, -, k, hplain, hlt, hmagnitude⟩
    refine ⟨k, hplain, hlt, eq_of_magnitude_eq ?_ ?_⟩
    · rw [hsign, isNegative_ofUnitFraction hlt]
    · rw [hmagnitude, magnitude_ofUnitFraction hlt]
  · rintro ⟨k, hplain, hlt, rfl⟩
    exact isPlainFraction_ofUnitFraction hplain hlt

end Binary64

namespace Value

open Binary64

-- The leaves that a generated tree may have.
def InRange : Value → Prop
  | int n => -1000 ≤ n.toInt ∧ n.toInt ≤ 1000
  | real x => x.IsPlainFraction

-- The words that are kept for one real share their top 53 bits.
theorem plainReal?_eq_some_iff {k : ℕ} (hplain : k = 0 ∨ 900719925475 ≤ k) (hlt : k < 2 ^ 53)
    (word : BitVec 64) :
    plainReal? word = some (ofUnitFraction k) ↔
      k * 2 ^ 11 ≤ word.toNat ∧ word.toNat < k * 2 ^ 11 + 2 ^ 11 := by
  have hword : word.toNat / 2 ^ 11 < 2 ^ 53 := by omega
  have hsame : word.toNat / 2 ^ 11 = k ↔
      k * 2 ^ 11 ≤ word.toNat ∧ word.toNat < k * 2 ^ 11 + 2 ^ 11 := by omega
  rw [← hsame, plainReal?]
  constructor
  · intro h
    split at h
    next => cases h
    next => exact ofUnitFraction_inj hword hlt (Option.some.inj h)
  · intro h
    have he : 'e' ∉ (ofUnitFraction (word.toNat / 2 ^ 11)).numeral := by
      rw [e_mem_numeral_ofUnitFraction hword]
      omega
    rw [if_neg he, h]

theorem isPlainFraction_of_plainReal? {word : BitVec 64} {x : Binary64}
    (h : plainReal? word = some x) : x.IsPlainFraction := by
  have hword : word.toNat / 2 ^ 11 < 2 ^ 53 := by omega
  rw [plainReal?] at h
  split at h
  next => cases h
  next he =>
    rw [e_mem_numeral_ofUnitFraction hword] at he
    rw [← Option.some.inj h]
    exact isPlainFraction_ofUnitFraction (by omega) hword

-- The two kinds of leaf, and the coin that decides between them.
def generateInt : Draw Script Value := do
  let offset ← below .w64 (leafMax - leafMin + 1).toNat
  return int (Int64.ofInt (leafMin + offset))

def generateReal : Draw Script Value := do
  return real (← redraw .w64 plainReal?)

theorem generate_eq :
    (generate : Draw Script Value) =
      word .w64 >>= fun coin => if coin.toNat < 2 ^ 63 then generateInt else generateReal := rfl

def intCoins : Set (BitVec Width.w64.bits) := {coin | coin.toNat < 2 ^ 63}

theorem runs_generateInt (v : Value) :
    generateInt.runs v =
      (below .w64 2001).runsIn {offset : ℕ | int (Int64.ofInt (leafMin + offset)) = v} :=
  runs_bind_pure (prefixCode_redraw _ _) _ v

theorem runs_generateReal (v : Value) :
    generateReal.runs v = (redraw .w64 plainReal?).runsIn {x | real x = v} :=
  runs_bind_pure (prefixCode_redraw _ _) _ v

theorem runs_int (n : Int64) :
    (generate : Draw Script Value).runs (int n) =
      (word .w64).runsIn intCoins * generateInt.runs (int n) := by
  rw [generate_eq]
  apply runs_bind_eq (prefixCode_redraw _ _)
  · intro coin hcoin
    have hlow : coin.toNat < 2 ^ 63 := hcoin
    rw [if_pos hlow]
  · intro coin hcoin
    have hhigh : ¬coin.toNat < 2 ^ 63 := hcoin
    have hnone : {x | real x = int n} = ∅ := by simp
    rw [if_neg hhigh, runs_generateReal, hnone, runsIn_empty]

theorem runs_real (x : Binary64) :
    (generate : Draw Script Value).runs (real x) =
      (word .w64).runsIn intCoinsᶜ * generateReal.runs (real x) := by
  rw [generate_eq]
  apply runs_bind_eq (prefixCode_redraw _ _)
  · intro coin hcoin
    have hhigh : ¬coin.toNat < 2 ^ 63 := hcoin
    rw [if_neg hhigh]
  · intro coin hcoin
    have hnone : {offset : ℕ | int (Int64.ofInt (leafMin + offset)) = real x} = ∅ := by simp
    have hlow : coin.toNat < 2 ^ 63 := Set.notMem_compl_iff.mp hcoin
    rw [if_pos hlow, runs_generateInt, hnone, runsIn_empty]

theorem ofInt_offset_eq_iff {offset : ℕ} (hoffset : offset < 2001) (n : Int64) :
    Int64.ofInt (leafMin + offset) = n ↔ leafMin + offset = n.toInt := by
  rw [← Int64.toInt_inj, leafMin, Int64.toInt_ofInt_of_le (by omega) (by omega)]

-- An integer is drawn as its distance from the smallest one.
theorem runs_generateInt_int {n : Int64} (hn : (int n).InRange) :
    generateInt.runs (int n) = (below .w64 2001).runs (n.toInt + 1000).toNat := by
  obtain ⟨hlow, hhigh⟩ := hn
  rw [runs_generateInt, ← runsIn_singleton]
  apply runsIn_below_congr (by decide)
  intro offset hoffset
  rw [Set.mem_ofPred_eq, int.injEq, ofInt_offset_eq_iff hoffset, Set.mem_singleton_iff, leafMin]
  omega

theorem runs_generateReal_real (x : Binary64) :
    generateReal.runs (real x) = (redraw .w64 plainReal?).runs x := by
  rw [runs_generateReal, ← runsIn_singleton]
  simp

theorem inRange_of_mem_runs {v : Value} {words : Script}
    (h : words ∈ (generate : Draw Script Value).runs v) : v.InRange := by
  cases v with
  | int n =>
    rw [runs_int, runs_generateInt] at h
    obtain ⟨-, -, _, ⟨offset, hoffset, hwords⟩, rfl⟩ := Language.mem_mul.mp h
    have hlt : offset < 2001 := lt_of_mem_runs_below (by decide) hwords
    have hn := (ofInt_offset_eq_iff hlt n).mp (int.inj hoffset)
    rw [leafMin] at hn
    rw [InRange]
    omega
  | real x =>
    rw [runs_real, runs_generateReal_real] at h
    obtain ⟨-, -, _, hwords, rfl⟩ := Language.mem_mul.mp h
    obtain ⟨_, word, -, -, hword⟩ := mem_runs_redraw.mp hwords
    exact isPlainFraction_of_plainReal? hword

theorem exists_plainReal? {x : Binary64} (hx : x.IsPlainFraction) :
    ∃ v : BitVec Width.w64.bits, plainReal? v = some x := by
  obtain ⟨k, hplain, hlt, rfl⟩ := isPlainFraction_iff.mp hx
  refine ⟨BitVec.ofNat 64 (k * 2 ^ 11), ?_⟩
  rw [plainReal?_eq_some_iff hplain hlt, BitVec.toNat_ofNat]
  omega

-- A leaf takes a coin and one more word if nothing is redrawn.
theorem shortest_runs {v : Value} (hv : v.InRange) :
    Shortest ((generate : Draw Script Value).runs v) 2 := by
  cases v with
  | int n =>
    have hcoin : BitVec.ofNat Width.w64.bits 0 ∈ intCoins := by
      change (0#64).toNat < 2 ^ 63
      decide
    have hoffset : (n.toInt + 1000).toNat < 2001 := by
      obtain ⟨hlow, hhigh⟩ := hv
      omega
    have hbelow : Shortest ((below .w64 2001).runsIn {(n.toInt + 1000).toNat}) 1 :=
      shortest_below (by decide) hoffset rfl
    rw [runsIn_singleton, ← runs_generateInt_int hv] at hbelow
    rw [runs_int]
    exact (shortest_word hcoin).mul hbelow
  | real x =>
    have hcoin : BitVec.ofNat Width.w64.bits (2 ^ 63) ∈ intCoinsᶜ := by
      change ¬(BitVec.ofNat 64 (2 ^ 63)).toNat < 2 ^ 63
      decide
    obtain ⟨v, hv⟩ := exists_plainReal? hv
    obtain ⟨word, rfl⟩ := Width.surjective_read .w64 v
    have hredraw : Shortest ((redraw .w64 plainReal?).runsIn {x}) 1 := shortest_redraw rfl hv
    rw [runsIn_singleton, ← runs_generateReal_real] at hredraw
    rw [runs_real]
    exact (shortest_word hcoin).mul hredraw

end Value

end ArithTree
