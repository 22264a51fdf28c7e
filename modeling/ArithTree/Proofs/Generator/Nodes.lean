import ArithTree.Proofs.Generator.Values

namespace ArithTree

open Draw Script

namespace BinaryOperator

def index : BinaryOperator → ℕ
  | add => 0
  | subtract => 1
  | multiply => 2

theorem index_lt (op : BinaryOperator) : op.index < 3 := by
  cases op <;> decide

theorem ofIndex_eq_iff {i : ℕ} (hi : i < 3) (op : BinaryOperator) :
    ofIndex i = op ↔ i = op.index := by
  cases op <;> decide +revert

theorem runs_generate (op : BinaryOperator) :
    (generate : Draw Script BinaryOperator).runs op = (below .w32 3).runs op.index := by
  have hruns : (generate : Draw Script BinaryOperator).runs op =
      (below .w32 3).runsIn {i | ofIndex i = op} := runs_bind_pure (prefixCode_below _ _) _ op
  rw [hruns, ← runsIn_singleton]
  exact runsIn_below_congr (by decide) fun i hi => ofIndex_eq_iff hi op

theorem shortest_runs (op : BinaryOperator) :
    Shortest ((generate : Draw Script BinaryOperator).runs op) 1 := by
  rw [runs_generate, ← runsIn_singleton]
  exact shortest_below (by decide) op.index_lt (Set.mem_singleton _)

end BinaryOperator

namespace Expr

-- The three kinds of node, and which of them a number makes.
def generateLeaf : Draw Script Expr := do
  return leaf (← Value.generate)

def generateNegation (depth : ℕ) : Draw Script Expr := do
  return unary .negate (← generate depth)

def generateBinary (depth : ℕ) : Draw Script Expr := do
  let operator ← BinaryOperator.generate
  let left ← generate depth
  let right ← generate depth
  return binary operator left right

def generateNode : (depth choice : ℕ) → Draw Script Expr
  | 0, _ => generateLeaf
  | _ + 1, 0 => generateLeaf
  | depth + 1, 1 => generateNegation depth
  | depth + 1, _ + 2 => generateBinary depth

theorem generate_eq (depth : ℕ) :
    (generate depth : Draw Script Expr) = below .w32 (depth + 1) >>= generateNode depth := by
  cases depth with
  | zero => rfl
  | succ depth =>
    rw [generate]
    congr 1
    funext choice
    rcases choice with _ | _ | choice <;> rfl

theorem runs_generateLeaf (t : Expr) :
    generateLeaf.runs t = Value.generate.runsIn {v | leaf v = t} :=
  runs_bind_pure Value.prefixCode_generate _ t

theorem runs_generateNegation (depth : ℕ) (t : Expr) :
    (generateNegation depth).runs t = (generate depth).runsIn {child | unary .negate child = t} :=
  runs_bind_pure (prefixCode_generate depth) _ t

theorem mem_runs_generateBinary {depth : ℕ} {t : Expr} {words : Script} :
    words ∈ (generateBinary depth).runs t ↔ ∃ op left right, binary op left right = t ∧
      words ∈ BinaryOperator.generate.runs op *
        ((generate depth).runs left * (generate depth).runs right) := by
  have hchild := prefixCode_generate depth
  simp only [generateBinary, mem_runs_bind BinaryOperator.prefixCode_generate, mem_runs_bind hchild,
    Language.mem_mul, mem_runs_pure]
  constructor
  · rintro ⟨op, u, hu, _, ⟨left, v, hv, _, ⟨right, v', hv', _, ⟨rfl, ht⟩, rfl⟩, rfl⟩, rfl⟩
    exact ⟨op, left, right, ht, u, hu, v ++ v', ⟨v, hv, v', hv', rfl⟩, by simp⟩
  · rintro ⟨op, left, right, ht, u, hu, _, ⟨v, hv, v', hv', rfl⟩, rfl⟩
    exact ⟨op, u, hu, _, ⟨left, v, hv, _, ⟨right, v', hv', [], ⟨rfl, ht⟩, rfl⟩, rfl⟩, by simp⟩

theorem runs_generateBinary (depth : ℕ) (op : BinaryOperator) (left right : Expr) :
    (generateBinary depth).runs (binary op left right) =
      BinaryOperator.generate.runs op *
        ((generate depth).runs left * (generate depth).runs right) := by
  ext words
  rw [mem_runs_generateBinary]
  constructor
  · rintro ⟨_, _, _, ht, hwords⟩
    cases ht
    exact hwords
  · intro hwords
    exact ⟨op, left, right, rfl, hwords⟩

theorem runs_generateBinary_eq_zero {depth : ℕ} {t : Expr}
    (ht : ∀ op left right, binary op left right ≠ t) : (generateBinary depth).runs t = 0 := by
  ext words
  refine iff_of_false (fun hwords => ?_) (Language.notMem_zero words)
  obtain ⟨op, left, right, heq, -⟩ := mem_runs_generateBinary.mp hwords
  exact ht op left right heq

theorem runs_leaf (depth : ℕ) (v : Value) :
    (generate depth).runs (leaf v) =
      (below .w32 (depth + 1)).runsIn {0} * Value.generate.runs v := by
  have hleaf : generateLeaf.runs (leaf v) = Value.generate.runs v := by
    rw [runs_generateLeaf, ← runsIn_singleton]
    simp
  rw [generate_eq]
  cases depth with
  | zero =>
    have hzero : (below .w32 1 : Draw Script ℕ).runsIn Set.univ = (below .w32 1).runsIn {0} :=
      runsIn_below_congr Nat.one_pos fun r hr => by simp [Nat.lt_one_iff.mp hr]
    rw [← hzero]
    exact runs_bind_eq (prefixCode_below _ _) (fun _ _ => hleaf) fun choice h => absurd trivial h
  | succ depth =>
    apply runs_bind_eq (prefixCode_below _ _)
    · rintro _ rfl
      exact hleaf
    · rintro (_ | _ | choice) hchoice
      · exact absurd rfl hchoice
      · exact (runs_generateNegation depth (leaf v)).trans (by simp [runsIn_empty])
      · exact runs_generateBinary_eq_zero (by simp)

theorem runs_unary (depth : ℕ) (op : UnaryOperator) (child : Expr) :
    (generate (depth + 1)).runs (unary op child) =
      (below .w32 (depth + 2)).runsIn {1} * (generate depth).runs child := by
  rw [generate_eq]
  apply runs_bind_eq (prefixCode_below _ _)
  · rintro _ rfl
    cases op
    have hchild : {c | unary .negate c = unary .negate child} = {child} := by simp
    rw [generateNode, runs_generateNegation, hchild, runsIn_singleton]
  · rintro (_ | _ | choice) hchoice
    · exact (runs_generateLeaf _).trans (by simp [runsIn_empty])
    · exact absurd rfl hchoice
    · exact runs_generateBinary_eq_zero (by simp)

theorem runs_binary (depth : ℕ) (op : BinaryOperator) (left right : Expr) :
    (generate (depth + 1)).runs (binary op left right) =
      (below .w32 (depth + 2)).runsIn {choice | 2 ≤ choice} *
        (BinaryOperator.generate.runs op *
          ((generate depth).runs left * (generate depth).runs right)) := by
  rw [generate_eq]
  apply runs_bind_eq (prefixCode_below _ _)
  · rintro (_ | _ | choice) hchoice
    · exact absurd hchoice (by decide)
    · exact absurd hchoice (by decide)
    · exact runs_generateBinary depth op left right
  · rintro (_ | _ | choice) hchoice
    · exact (runs_generateLeaf _).trans (by simp [runsIn_empty])
    · exact (runs_generateNegation depth _).trans (by simp [runsIn_empty])
    · exact absurd (Nat.le_add_left 2 choice) hchoice

theorem runs_zero {t : Expr} {words : Script} (h : words ∈ (generate 0 : Draw Script Expr).runs t) :
    ∃ v, t = leaf v := by
  rw [generate_eq, mem_runs_bind (prefixCode_below _ _)] at h
  obtain ⟨choice, h⟩ := h
  obtain ⟨-, -, _, hleaf, -⟩ := Language.mem_mul.mp h
  rw [generateNode, runs_generateLeaf] at hleaf
  obtain ⟨v, hv, -⟩ := hleaf
  exact ⟨v, hv.symm⟩

end Expr

end ArithTree
