import ArithTree.Depth
import ArithTree.Proofs.Generator.Sources
import ArithTree.Proofs.WordCounts

namespace ArithTree

theorem checkDepth_eq_ok_iff {depth : ℕ} : checkDepth depth = .ok depth ↔ depth ≤ maxDepth := by
  rw [checkDepth]
  split <;> simp_all

namespace Expr

variable {t : Expr} {depth : ℕ}

-- A binary operator needs a depth of two, so that the leaves of a tree double with every level
-- but the lowest.
theorem InRange.leafCount_le (h : t.InRange depth) : t.leafCount ≤ 2 ^ (depth - 1) := by
  induction t generalizing depth with
  | leaf => exact Nat.one_le_two_pow
  | unary op child ih =>
    calc
      (unary op child).leafCount ≤ 2 ^ (depth - 1 - 1) := ih (inRange_unary.mp h).2
      _ ≤ 2 ^ (depth - 1) := Nat.pow_le_pow_right (by decide) (Nat.sub_le _ _)
  | binary op left right ihl ihr =>
    obtain ⟨hdepth, hleft, hright⟩ := inRange_binary.mp h
    have hlevel : depth - 1 = depth - 1 - 1 + 1 := by omega
    calc
      (binary op left right).leafCount ≤ 2 ^ (depth - 1 - 1) + 2 ^ (depth - 1 - 1) :=
        Nat.add_le_add (ihl hleft) (ihr hright)
      _ = 2 ^ (depth - 1 - 1 + 1) := by rw [Nat.pow_succ, Nat.mul_two]
      _ = 2 ^ (depth - 1) := by rw [← hlevel]

theorem InRange.lineCount_lt (h : t.InRange depth) : t.lineCount < 2 ^ (depth - 1 + 1) := by
  have hleaves := h.leafCount_le
  have hlines := t.lineCount_add_one
  rw [Nat.pow_succ]
  omega

-- The tree with all its leaves at one level and nothing but binary operators above them.
def perfect : (levels : ℕ) → Expr
  | 0 => leaf (.int 0)
  | levels + 1 => binary .add (perfect levels) (perfect levels)

theorem leafCount_perfect (levels : ℕ) : (perfect levels).leafCount = 2 ^ levels := by
  induction levels with
  | zero => rfl
  | succ levels ih => rw [perfect, leafCount, ih, Nat.pow_succ, Nat.mul_two]

theorem lineCount_perfect (levels : ℕ) :
    (perfect levels).lineCount = 2 ^ (levels + 1) - 1 := by
  have hlines := (perfect levels).lineCount_add_one
  rw [leafCount_perfect] at hlines
  rw [Nat.pow_succ]
  omega

theorem inRange_perfect (levels : ℕ) : (perfect levels).InRange (levels + 1) := by
  induction levels with
  | zero => exact inRange_leaf.mpr ⟨by decide, by decide⟩
  | succ levels ih => exact inRange_binary.mpr ⟨Nat.le_add_left 2 levels, ih, ih⟩

theorem generated_perfect {levels : ℕ} (hlevels : levels + 1 < 2 ^ 32) :
    Generated (levels + 1) (perfect levels) :=
  (inRange_perfect levels).generated hlevels

-- Up to the largest depth that may be requested, 64 bits are enough for all lines of a tree, and
-- so they are for its leaves and for its binary operators.
theorem InRange.counts?_eq (h : t.InRange depth) (hdepth : depth ≤ maxDepth) :
    t.leafCount? = some t.leafCount ∧ t.binaryCount? = some t.binaryCount ∧
      t.lineCount? = some t.lineCount := by
  have hmax : maxDepth = 64 := rfl
  have hlines : t.leafCount + t.binaryCount < 2 ^ 64 :=
    calc
      t.lineCount < 2 ^ (depth - 1 + 1) := h.lineCount_lt
      _ ≤ 2 ^ 64 := Nat.pow_le_pow_right (by decide) (by omega)
  rw [leafCount?_eq, binaryCount?_eq, lineCount?_eq]
  exact ⟨fit?_of_lt (by omega), fit?_of_lt (by omega), fit?_of_lt hlines⟩

-- Beyond it there is a tree with too many lines.
theorem le_lineCount_perfect {levels : ℕ} (h : maxDepth ≤ levels) :
    2 ^ 64 ≤ (perfect levels).lineCount := by
  have hpow : 2 ^ (64 + 1) ≤ 2 ^ (levels + 1) :=
    Nat.pow_le_pow_right (by decide) (Nat.succ_le_succ h)
  rw [lineCount_perfect]
  omega

theorem lineCount?_perfect {levels : ℕ} (h : maxDepth ≤ levels) :
    (perfect levels).lineCount? = none := by
  rw [lineCount?_eq]
  exact fit?_of_le (le_lineCount_perfect h)

-- A tree from depth `d` has at most `2 ^ (d - 1)` leaves and `2 ^ d - 1` lines, and the perfect
-- tree has as many. So the largest depth that may be requested is the largest one at which every
-- sum in every count fits into its word. The depth of a tree fits whatever depth it is from.
theorem counts_le_and_attained_and_fit_iff_checkDepth :
    (∀ depth, 1 ≤ depth → depth < 2 ^ 32 →
      (∀ t, Generated depth t → t.leafCount ≤ 2 ^ (depth - 1) ∧ t.lineCount ≤ 2 ^ depth - 1) ∧
      ∃ t, Generated depth t ∧ t.leafCount = 2 ^ (depth - 1) ∧ t.lineCount = 2 ^ depth - 1) ∧
    (∀ depth < 2 ^ 32, checkDepth depth = .ok depth ↔
      ∀ t, Generated depth t → t.leafCount? = some t.leafCount ∧
        t.binaryCount? = some t.binaryCount ∧ t.lineCount? = some t.lineCount) ∧
    (∃ t, Generated (maxDepth + 1) t ∧ 2 ^ 64 - 1 < t.lineCount ∧ t.lineCount? = none) ∧
    ∀ depth < 2 ^ 32, ∀ t, Generated depth t → t.depth < 2 ^ 32 ∧ t.depth? = some t.depth := by
  refine ⟨fun depth hpos hdepth => ?_, fun depth hdepth => ?_, ?_, fun depth hdepth t ht => ?_⟩
  · obtain ⟨levels, rfl⟩ := Nat.exists_eq_add_of_le' hpos
    constructor
    · intro t ht
      exact ⟨ht.inRange.leafCount_le, Nat.le_sub_one_of_lt ht.inRange.lineCount_lt⟩
    · exact ⟨perfect levels, generated_perfect hdepth, leafCount_perfect levels,
        lineCount_perfect levels⟩
  · rw [checkDepth_eq_ok_iff]
    constructor
    · intro hmax t ht
      exact ht.inRange.counts?_eq hmax
    · intro hfit
      by_contra hmax
      obtain ⟨levels, rfl⟩ := Nat.exists_eq_add_of_le' (Nat.one_le_of_lt (Nat.lt_of_not_le hmax))
      obtain ⟨-, -, hlines⟩ := hfit _ (generated_perfect hdepth)
      rw [lineCount?_perfect (by omega)] at hlines
      cases hlines
  · have hlines := le_lineCount_perfect (Nat.le_refl maxDepth)
    exact ⟨perfect maxDepth, generated_perfect (by decide), by omega,
      lineCount?_perfect (Nat.le_refl maxDepth)⟩
  · have hle := ht.inRange.depth_le
    refine ⟨by omega, ?_⟩
    rw [depth?_eq, fit?_of_lt (by omega)]

end Expr

end ArithTree
