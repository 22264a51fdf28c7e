import ArithTree.Expr.Basic
import Mathlib.Data.Nat.Notation

namespace ArithTree

variable {bits m n : ℕ}

-- A number if it fits into a word.
def fit? (bits n : ℕ) : Option ℕ := if n < 2 ^ bits then some n else none

theorem fit?_of_lt (h : n < 2 ^ bits) : fit? bits n = some n := if_pos h

theorem fit?_of_le (h : 2 ^ bits ≤ n) : fit? bits n = none := if_neg (Nat.not_lt.mpr h)

-- A summand that does not fit makes no difference, as the sum does not fit either.
theorem fit?_bind {next : ℕ → Option ℕ} (hle : m ≤ n) (hnext : next m = fit? bits n) :
    (fit? bits m >>= next) = fit? bits n := by
  by_cases hm : m < 2 ^ bits
  · rw [fit?_of_lt hm]
    exact hnext
  · rw [fit?_of_le (Nat.le_of_not_lt hm), fit?_of_le (by omega)]
    rfl

namespace Expr

-- The counts with every sum kept in a word, 32 bits for the depth and 64 bits for the others. A
-- sum that does not fit leaves no count.
def depth? : Expr → Option ℕ
  | leaf _ => some 0
  | unary _ child => do fit? 32 (1 + (← child.depth?))
  | binary _ left right => do fit? 32 (1 + max (← left.depth?) (← right.depth?))

def leafCount? : Expr → Option ℕ
  | leaf _ => some 1
  | unary _ child => child.leafCount?
  | binary _ left right => do fit? 64 ((← left.leafCount?) + (← right.leafCount?))

def binaryCount? : Expr → Option ℕ
  | leaf _ => some 0
  | unary _ child => child.binaryCount?
  | binary _ left right => do
    let count ← fit? 64 (1 + (← left.binaryCount?))
    fit? 64 (count + (← right.binaryCount?))

def lineCount? (e : Expr) : Option ℕ := do fit? 64 ((← e.leafCount?) + (← e.binaryCount?))

theorem depth?_eq (e : Expr) : e.depth? = fit? 32 e.depth := by
  induction e with
  | leaf => rfl
  | unary op child ih =>
    rw [depth?, depth, ih, Nat.add_comm]
    exact fit?_bind (Nat.le_add_left _ _) rfl
  | binary op left right ihl ihr =>
    rw [depth?, depth, ihl, ihr, Nat.add_comm]
    have hle := Nat.le_max_left left.depth right.depth
    have hle' := Nat.le_max_right left.depth right.depth
    exact fit?_bind (by omega) (fit?_bind (by omega) rfl)

theorem leafCount?_eq (e : Expr) : e.leafCount? = fit? 64 e.leafCount := by
  induction e with
  | leaf => rfl
  | unary op child ih => exact ih
  | binary op left right ihl ihr =>
    rw [leafCount?, leafCount, ihl, ihr]
    exact fit?_bind (Nat.le_add_right _ _) (fit?_bind (Nat.le_add_left _ _) rfl)

theorem binaryCount?_eq (e : Expr) : e.binaryCount? = fit? 64 e.binaryCount := by
  induction e with
  | leaf => rfl
  | unary op child ih => exact ih
  | binary op left right ihl ihr =>
    have htotal : left.binaryCount + right.binaryCount + 1 =
        1 + left.binaryCount + right.binaryCount := by omega
    rw [binaryCount?, binaryCount, ihl, ihr, htotal]
    exact fit?_bind (by omega) (fit?_bind (by omega) (fit?_bind (by omega) rfl))

theorem lineCount?_eq (e : Expr) : e.lineCount? = fit? 64 e.lineCount := by
  rw [lineCount?, leafCount?_eq, binaryCount?_eq]
  exact fit?_bind (Nat.le_add_right _ _) (fit?_bind (Nat.le_add_left _ _) rfl)

end Expr

end ArithTree
