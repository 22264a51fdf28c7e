import ArithTree.Random.Bounded
import Mathlib.Tactic.Ring
import ArithTree.Proofs.Random.Runs

namespace ArithTree.Width

variable {w : Width} {n r : ℕ}

-- How many words a stretch keeps.
def kept (w : Width) (n : ℕ) : ℕ := 2 ^ (w.bits - 1 - n.log2)

-- The first word of a stretch.
def stretchStart (w : Width) (n r : ℕ) : ℕ := (r * w.count + n - 1) / n

theorem mul_kept_le_count (hn : 0 < n) (hle : n ≤ w.count) : n * w.kept n ≤ w.count := by
  have hlog : n.log2 ≤ w.bits := by
    by_contra h
    have hlow := Nat.log2_self_le (n := n) (by omega)
    have hpow : 2 ^ (w.bits + 1) ≤ 2 ^ n.log2 := Nat.pow_le_pow_right (by omega) (by omega)
    have hpos := Nat.two_pow_pos w.bits
    simp only [count] at hle
    omega
  have hlt := Nat.lt_log2_self (n := n)
  by_cases hfull : n.log2 = w.bits
  · simp only [kept, hfull]
    have hzero : w.bits - 1 - w.bits = 0 := by omega
    simpa [hzero] using hle
  · have hsum : n.log2 + 1 + (w.bits - 1 - n.log2) = w.bits := by omega
    calc
      n * w.kept n ≤ 2 ^ (n.log2 + 1) * 2 ^ (w.bits - 1 - n.log2) :=
        Nat.mul_le_mul_right _ (Nat.le_of_lt hlt)
      _ = w.count := by rw [← Nat.pow_add, hsum, count]

theorem stretchStart_le_iff (hn : 0 < n) (v : ℕ) :
    w.stretchStart n r ≤ v ↔ r * w.count ≤ v * n := by
  rw [stretchStart, Nat.div_le_iff_le_mul hn]
  constructor <;> intro h <;> omega

theorem lt_stretchStart_add_iff (hn : 0 < n) (v more : ℕ) :
    v < w.stretchStart n r + more ↔ v * n < r * w.count + n * more := by
  by_cases hv : v < more
  · have hmul : v * n < n * more := by
      rw [Nat.mul_comm]
      exact Nat.mul_lt_mul_of_pos_left hv hn
    constructor <;> intro _ <;> omega
  · obtain ⟨u, rfl⟩ := Nat.exists_eq_add_of_le (Nat.le_of_not_lt hv)
    have hiff := stretchStart_le_iff (w := w) (r := r) hn u
    have hexpand : (more + u) * n = n * more + u * n := by ring
    rw [hexpand]
    constructor <;> intro _ <;> omega

theorem reduce?_eq_some (hn : 0 < n) (v : BitVec w.bits) :
    w.reduce? n v = some r ↔
      v.toNat * n / w.count = r ∧ v.toNat * n % w.count < n * w.kept n := by
  have hpos : 0 < n * w.kept n := Nat.mul_pos hn (Nat.two_pow_pos _)
  have hzone : v.toNat * n % w.count ≤ w.zone n ↔ v.toNat * n % w.count < n * w.kept n := by
    simp only [zone, kept] at hpos ⊢
    omega
  rw [reduce?, ← hzone]
  split <;> simp_all

-- The words that a bounded draw keeps for one result are the first ones of its stretch.
theorem reduce?_eq_some_iff (hn : 0 < n) (hle : n ≤ w.count) (v : BitVec w.bits) :
    w.reduce? n v = some r ↔
      w.stretchStart n r ≤ v.toNat ∧ v.toNat < w.stretchStart n r + w.kept n := by
  have hkept := mul_kept_le_count hn hle
  have hdivMod := Nat.div_add_mod (v.toNat * n) w.count
  rw [reduce?_eq_some hn, stretchStart_le_iff hn, lt_stretchStart_add_iff hn]
  constructor
  · rintro ⟨rfl, hmod⟩
    rw [Nat.mul_comm w.count] at hdivMod
    omega
  · rintro ⟨hlow, hhigh⟩
    have hdiv : v.toNat * n / w.count = r := by
      apply Nat.div_eq_of_lt_le hlow
      rw [Nat.add_mul, Nat.one_mul]
      omega
    rw [hdiv, Nat.mul_comm] at hdivMod
    exact ⟨hdiv, by omega⟩

-- A stretch ends before the words do, and results at the bound or above have none.
theorem stretchStart_add_kept_le (hn : 0 < n) (hle : n ≤ w.count) (hr : r < n) :
    w.stretchStart n r + w.kept n ≤ w.count := by
  by_contra h
  have hlt := (lt_stretchStart_add_iff (w := w) (r := r) hn w.count (w.kept n)).mp (by omega)
  have hzone := mul_kept_le_count hn hle
  have hstep : (r + 1) * w.count ≤ n * w.count := Nat.mul_le_mul_right _ hr
  rw [Nat.add_mul, Nat.one_mul, Nat.mul_comm n] at hstep
  omega

theorem lt_of_reduce?_eq_some (hn : 0 < n) {v : BitVec w.bits} (h : w.reduce? n v = some r) :
    r < n := by
  obtain ⟨rfl, -⟩ := (reduce?_eq_some hn v).mp h
  exact Nat.div_lt_of_lt_mul (Nat.mul_lt_mul_of_pos_right v.isLt hn)

theorem exists_reduce?_eq_some (hn : 0 < n) (hle : n ≤ w.count) (hr : r < n) :
    ∃ v : BitVec w.bits, w.reduce? n v = some r := by
  have hend := stretchStart_add_kept_le hn hle hr
  have hkept : 0 < w.kept n := Nat.two_pow_pos _
  have hlt : w.stretchStart n r < 2 ^ w.bits := by
    simp only [count] at hend
    omega
  refine ⟨BitVec.ofNat w.bits (w.stretchStart n r), ?_⟩
  rw [reduce?_eq_some_iff hn hle, BitVec.toNat_ofNat, Nat.mod_eq_of_lt hlt]
  omega

theorem toNat_read (w : Width) (word : UInt64) :
    (w.read word).toNat = word.toNat % w.count := by
  simp [read, count]

theorem surjective_read (w : Width) : Function.Surjective w.read := by
  intro v
  have hlt : v.toNat < 2 ^ 64 := by
    have hv := v.isLt
    cases w <;> simp only [bits] at * <;> omega
  refine ⟨UInt64.ofNat v.toNat, BitVec.eq_of_toNat_eq ?_⟩
  rw [toNat_read, UInt64.toNat_ofNat_of_lt' hlt, count, Nat.mod_eq_of_lt v.isLt]

-- Moves a word by the distance between two starts.
def shift (start start' : ℕ) (word : UInt64) : UInt64 :=
  UInt64.ofNat (word.toNat - start + start')

-- A word within one stretch moves within its own block of `w.count` words.
theorem toNat_shift {start start' size : ℕ} (hsize : start' + size ≤ w.count) {word : UInt64}
    (hlow : start ≤ (w.read word).toNat) (hhigh : (w.read word).toNat < start + size) :
    (shift start start' word).toNat = word.toNat - start + start' ∧
      (w.read (shift start start' word)).toNat = (w.read word).toNat - start + start' := by
  have hword := word.toNat_lt
  simp only [toNat_read] at hlow hhigh ⊢
  cases w <;> simp only [count, bits, shift, UInt64.toNat_ofNat'] at * <;> omega

theorem shift_shift {start start' size : ℕ} (hsize : start + size ≤ w.count)
    (hsize' : start' + size ≤ w.count) {word : UInt64}
    (hlow : start ≤ (w.read word).toNat) (hhigh : (w.read word).toNat < start + size) :
    shift start' start (shift start start' word) = word := by
  have hshift := toNat_shift hsize' hlow hhigh
  have hback : (shift start' start (shift start start' word)).toNat =
      (shift start start' word).toNat - start' + start :=
    (toNat_shift hsize (by omega) (by omega)).1
  have hle : (w.read word).toNat ≤ word.toNat := by
    rw [toNat_read]
    exact Nat.mod_le _ _
  apply UInt64.toNat_inj.mp
  omega

def shiftEquiv {start start' size : ℕ} (hsize : start + size ≤ w.count)
    (hsize' : start' + size ≤ w.count) :
    {word : UInt64 // start ≤ (w.read word).toNat ∧ (w.read word).toNat < start + size} ≃
      {word : UInt64 // start' ≤ (w.read word).toNat ∧ (w.read word).toNat < start' + size} where
  toFun word := ⟨shift start start' word.1, by
    have hshift := toNat_shift hsize' word.2.1 word.2.2
    have hword := word.2
    omega⟩
  invFun word := ⟨shift start' start word.1, by
    have hshift := toNat_shift hsize word.2.1 word.2.2
    have hword := word.2
    omega⟩
  left_inv word := Subtype.ext (shift_shift hsize hsize' word.2.1 word.2.2)
  right_inv word := Subtype.ext (shift_shift hsize' hsize word.2.1 word.2.2)

-- As many words give one result of a bounded draw as give any other.
def reduceEquiv (hn : 0 < n) (hle : n ≤ w.count) {r r' : ℕ} (hr : r < n) (hr' : r' < n) :
    {word : UInt64 // w.reduce? n (w.read word) = some r} ≃
      {word : UInt64 // w.reduce? n (w.read word) = some r'} :=
  (Equiv.subtypeEquivRight fun word => reduce?_eq_some_iff hn hle (w.read word)).trans
    ((shiftEquiv (stretchStart_add_kept_le hn hle hr) (stretchStart_add_kept_le hn hle hr')).trans
      (Equiv.subtypeEquivRight fun word => (reduce?_eq_some_iff hn hle (w.read word)).symm))

end ArithTree.Width
