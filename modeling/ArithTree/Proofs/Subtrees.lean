import ArithTree.Expr.Basic
import Mathlib.Data.Nat.Notation

namespace ArithTree.Expr

-- The values of the leaves from left to right.
def leaves : Expr → List Value
  | leaf value => [value]
  | unary _ child => child.leaves
  | binary _ left right => left.leaves ++ right.leaves

def unaryCount : Expr → ℕ
  | leaf _ => 0
  | unary _ child => child.unaryCount + 1
  | binary _ left right => left.unaryCount + right.unaryCount

-- Every binary operator joins two trees into one.
theorem leafCount_eq (t : Expr) : t.leafCount = t.binaryCount + 1 := by
  induction t with
  | leaf => rfl
  | unary op child ih => exact ih
  | binary op left right ihl ihr =>
    rw [leafCount, binaryCount]
    omega

theorem lineCount_add_one (t : Expr) : t.lineCount + 1 = 2 * t.leafCount := by
  rw [lineCount, leafCount_eq]
  omega

-- A tree has a subtree at some distance from its root.
inductive HasAt : Expr → ℕ → Expr → Prop
  | root (t : Expr) : HasAt t 0 t
  | child {operator : UnaryOperator} {child t : Expr} {distance : ℕ} (h : HasAt child distance t) :
      HasAt (unary operator child) (distance + 1) t
  | left {operator : BinaryOperator} {left right t : Expr} {distance : ℕ}
      (h : HasAt left distance t) : HasAt (binary operator left right) (distance + 1) t
  | right {operator : BinaryOperator} {left right t : Expr} {distance : ℕ}
      (h : HasAt right distance t) : HasAt (binary operator left right) (distance + 1) t

variable {t u : Expr} {distance : ℕ}

-- A path to a subtree goes on inside it, so that it is no longer than the longest one.
theorem HasAt.add_depth_le (h : HasAt t distance u) : distance + u.depth ≤ t.depth := by
  induction h with
  | root => omega
  | child _ ih =>
    rw [depth]
    omega
  | left _ ih =>
    rw [depth]
    omega
  | right _ ih =>
    rw [depth]
    omega

theorem HasAt.leaves_subset (h : HasAt t distance u) : u.leaves ⊆ t.leaves := by
  induction h with
  | root => exact List.Subset.refl _
  | child _ ih => exact ih
  | left _ ih => exact List.subset_append_of_subset_left _ ih
  | right _ ih => exact List.subset_append_of_subset_right _ ih

theorem HasAt.mem_leaves {v : Value} (h : HasAt t distance (leaf v)) : v ∈ t.leaves :=
  h.leaves_subset List.mem_cons_self

end ArithTree.Expr
