import ArithTree.Proofs.Random.Sources
import Mathlib.Algebra.Order.BigOperators.Group.Finset
import Mathlib.Data.BitVec
import Mathlib.Data.FinEnum
import Mathlib.Order.Interval.Finset.Nat

namespace ArithTree

namespace Width

variable {w : Width} {n r : ℕ}

-- The zero bits in front of a number among the bits of a word.
def leadingZeros (w : Width) (n : ℕ) : ℕ := (BitVec.ofNat w.bits n).clz.toNat

-- The words that a bounded draw keeps for one result, and all those that it keeps.
def keptFor (w : Width) (n r : ℕ) : Finset (BitVec w.bits) :=
  Finset.univ.filter fun v => w.reduce? n v = some r

def keptWords (w : Width) (n : ℕ) : Finset (BitVec w.bits) :=
  Finset.univ.filter fun v => (w.reduce? n v).isSome

theorem mem_keptFor {v : BitVec w.bits} : v ∈ w.keptFor n r ↔ w.reduce? n v = some r := by
  simp [keptFor]

theorem bits_pos (w : Width) : 0 < w.bits := by cases w <;> decide

theorem toNat_ofNat_of_lt (hlt : n < w.count) : (BitVec.ofNat w.bits n).toNat = n := by
  rw [BitVec.toNat_ofNat]
  exact Nat.mod_eq_of_lt hlt

-- A word has as many bits as leading zeros, the bit they end at, and the bits behind it.
theorem leadingZeros_add_log2 (hn : 0 < n) (hlt : n < w.count) :
    w.leadingZeros n + n.log2 + 1 = w.bits := by
  have hword := toNat_ofNat_of_lt hlt
  have hne : BitVec.ofNat w.bits n ≠ 0#w.bits := by
    intro hzero
    rw [hzero, BitVec.toNat_zero] at hword
    omega
  have hlow := BitVec.two_pow_sub_clz_le_toNat_of_ne_zero w.bits_pos hne
  have hhigh := BitVec.toNat_lt_two_pow_sub_clz (x := BitVec.ofNat w.bits n)
  rw [hword] at hlow hhigh
  change 2 ^ (w.bits - 1 - w.leadingZeros n) ≤ n at hlow
  change n < 2 ^ (w.bits - w.leadingZeros n) at hhigh
  have hclz : w.leadingZeros n < w.bits := by
    by_contra hge
    have hone : w.bits - w.leadingZeros n = 0 := by omega
    rw [hone, Nat.pow_zero] at hhigh
    omega
  have hlog : n.log2 = w.bits - 1 - w.leadingZeros n := by
    rw [Nat.log2_eq_iff (by omega)]
    have hsucc : w.bits - 1 - w.leadingZeros n + 1 = w.bits - w.leadingZeros n := by omega
    exact ⟨hlow, hsucc ▸ hhigh⟩
  omega

theorem kept_eq_two_pow (hn : 0 < n) (hlt : n < w.count) : w.kept n = 2 ^ w.leadingZeros n := by
  have hsum := leadingZeros_add_log2 hn hlt
  have hexp : w.bits - 1 - n.log2 = w.leadingZeros n := by omega
  rw [kept, hexp]

-- Shifted up to the top of a word, a number loses no bits.
theorem zone_eq_toNat (hn : 0 < n) (hlt : n < w.count) :
    w.zone n = ((BitVec.ofNat w.bits n <<< w.leadingZeros n) - 1).toNat := by
  have hsum := leadingZeros_add_log2 hn hlt
  have hfits : n * 2 ^ w.leadingZeros n < 2 ^ w.bits := by
    calc
      n * 2 ^ w.leadingZeros n < 2 ^ (n.log2 + 1) * 2 ^ w.leadingZeros n :=
        Nat.mul_lt_mul_of_pos_right Nat.lt_log2_self (Nat.two_pow_pos _)
      _ = 2 ^ w.bits := by
        rw [← Nat.pow_add]
        congr 1
        omega
  have hpos : 0 < n * 2 ^ w.leadingZeros n := Nat.mul_pos hn (Nat.two_pow_pos _)
  have hshift : (BitVec.ofNat w.bits n <<< w.leadingZeros n).toNat = n * 2 ^ w.leadingZeros n := by
    rw [BitVec.toNat_shiftLeft, toNat_ofNat_of_lt hlt, Nat.shiftLeft_eq, Nat.mod_eq_of_lt hfits]
  have hone : (1 : BitVec w.bits).toNat = 1 := toNat_ofNat_of_lt (lt_of_le_of_lt hn hlt)
  have hle : (1 : BitVec w.bits) ≤ BitVec.ofNat w.bits n <<< w.leadingZeros n := by
    rw [BitVec.le_def, hone, hshift]
    exact hpos
  rw [BitVec.toNat_sub_of_le hle, hshift, hone, ← kept_eq_two_pow hn hlt]
  rfl

-- A bounded draw multiplies by its bound. The high half of the product is the result, and the low
-- one, which is the product of words, says whether the word is kept.
theorem reduce?_eq_some_iff_mul_le (hn : 0 < n) (hlt : n < w.count) (v : BitVec w.bits) :
    w.reduce? n v = some r ↔
      v * BitVec.ofNat w.bits n ≤ (BitVec.ofNat w.bits n <<< w.leadingZeros n) - 1 ∧
        v.toNat * n / w.count = r := by
  have hlow : (v * BitVec.ofNat w.bits n).toNat = v.toNat * n % w.count := by
    rw [BitVec.toNat_mul, toNat_ofNat_of_lt hlt, count]
  rw [BitVec.le_def, hlow, ← zone_eq_toNat hn hlt, reduce?]
  split <;> simp_all

-- Every result has a stretch of words of its own, and all stretches keep as many of them.
theorem card_keptFor (hn : 0 < n) (hle : n ≤ w.count) (hr : r < n) :
    (w.keptFor n r).card = w.kept n := by
  have hend := stretchStart_add_kept_le hn hle hr
  have hstretch : (w.keptFor n r).image BitVec.toNat =
      Finset.Ico (w.stretchStart n r) (w.stretchStart n r + w.kept n) := by
    ext i
    simp only [Finset.mem_image, mem_keptFor, reduce?_eq_some_iff hn hle, Finset.mem_Ico]
    constructor
    · rintro ⟨v, hv, rfl⟩
      exact hv
    · intro hi
      have hword := toNat_ofNat_of_lt (w := w) (n := i) (by omega)
      exact ⟨BitVec.ofNat w.bits i, by rwa [hword], hword⟩
  rw [← Finset.card_image_of_injective _ BitVec.toNat_injective, hstretch, Nat.card_Ico,
    Nat.add_sub_cancel_left]

theorem keptWords_eq_biUnion (hn : 0 < n) :
    w.keptWords n = (Finset.range n).biUnion (w.keptFor n) := by
  ext v
  simp only [keptWords, Finset.mem_filter, Finset.mem_univ, true_and, Finset.mem_biUnion,
    Finset.mem_range, mem_keptFor, Option.isSome_iff_exists]
  constructor
  · rintro ⟨r, hr⟩
    exact ⟨r, lt_of_reduce?_eq_some hn hr, hr⟩
  · rintro ⟨r, -, hr⟩
    exact ⟨r, hr⟩

theorem card_keptWords (hn : 0 < n) (hle : n ≤ w.count) :
    (w.keptWords n).card = n * w.kept n := by
  have hdisjoint : ((Finset.range n : Finset ℕ) : Set ℕ).PairwiseDisjoint (w.keptFor n) := by
    intro r _ r' _ hne
    rw [Function.onFun, Finset.disjoint_left]
    intro v hv hv'
    rw [mem_keptFor] at hv hv'
    exact hne (Option.some.inj (hv.symm.trans hv'))
  rw [keptWords_eq_biUnion hn, Finset.card_biUnion hdisjoint,
    Finset.sum_const_nat fun r hr => card_keptFor hn hle (Finset.mem_range.mp hr),
    Finset.card_range]

-- A power of two that is no larger than the bound and more than half of it fills half of the zone.
theorem count_le_two_mul_card_keptWords (hn : 0 < n) (hlt : n < w.count) :
    w.count ≤ 2 * (w.keptWords n).card := by
  have hsum := leadingZeros_add_log2 hn hlt
  have hlow := Nat.log2_self_le hn.ne'
  rw [card_keptWords hn hlt.le, kept_eq_two_pow hn hlt]
  calc
    w.count = 2 * (2 ^ n.log2 * 2 ^ w.leadingZeros n) := by
      rw [← Nat.pow_add, ← Nat.pow_succ', count]
      congr 1
      omega
    _ ≤ 2 * (n * 2 ^ w.leadingZeros n) :=
      Nat.mul_le_mul_left 2 (Nat.mul_le_mul_right _ hlow)

-- With as many results as there are words, every word is kept for itself.
theorem reduce?_count (v : BitVec w.bits) : w.reduce? w.count v = some v.toNat := by
  have hpos : 0 < w.count := Nat.two_pow_pos _
  rw [reduce?_eq_some hpos, Nat.mul_div_cancel _ hpos, Nat.mul_mod_left]
  exact ⟨rfl, Nat.mul_pos hpos (Nat.two_pow_pos _)⟩

end Width

-- Whatever its source, a bounded draw stays below its bound.
theorem Draw.lt_of_runOn_below {σ : Type} [Source σ] {w : Width} {n r : ℕ} {s s' : σ}
    (hn : 0 < n) (h : (below w n).runOn s = (some r, s')) : r < n := by
  obtain ⟨v, hv⟩ := exists_accepted_of_redrawFrom h
  exact Width.lt_of_reduce?_eq_some hn hv

end ArithTree
