import ArithTree.Proofs.Generator.Nodes
import ArithTree.Proofs.Subtrees

namespace ArithTree.Expr

open Draw Script

-- The trees that can be generated at a depth. A binary operator needs a depth of two or more
-- to be left at its place.
structure InRange (t : Expr) (depth : ℕ) : Prop where
  leaf_inRange : ∀ v ∈ t.leaves, v.InRange
  depth_le : t.depth ≤ depth
  binary_le : ∀ {distance operator left right},
    HasAt t distance (binary operator left right) → distance + 2 ≤ depth

theorem inRange_leaf {v : Value} {depth : ℕ} : (leaf v).InRange depth ↔ v.InRange := by
  constructor
  · intro h
    exact h.leaf_inRange v List.mem_cons_self
  · intro hv
    refine ⟨fun v' hv' => ?_, Nat.zero_le depth, fun h => nomatch h⟩
    rwa [List.mem_singleton.mp hv']

theorem inRange_unary {op : UnaryOperator} {child : Expr} {depth : ℕ} :
    (unary op child).InRange depth ↔ 1 ≤ depth ∧ child.InRange (depth - 1) := by
  constructor
  · rintro ⟨hleaf, hdepth, hbinary⟩
    rw [Expr.depth] at hdepth
    refine ⟨by omega, hleaf, by omega, fun h => ?_⟩
    have hle := hbinary (.child h)
    omega
  · rintro ⟨hdepth, hchild⟩
    have hle := hchild.depth_le
    refine ⟨hchild.leaf_inRange, ?_, fun h => ?_⟩
    · rw [Expr.depth]
      omega
    · cases h with
      | child h =>
        have hle' := hchild.binary_le h
        omega

theorem inRange_binary {op : BinaryOperator} {left right : Expr} {depth : ℕ} :
    (binary op left right).InRange depth ↔
      2 ≤ depth ∧ left.InRange (depth - 1) ∧ right.InRange (depth - 1) := by
  constructor
  · rintro ⟨hleaf, hdepth, hbinary⟩
    have hroot := hbinary (.root _)
    simp only [leaves, List.mem_append] at hleaf
    rw [Expr.depth] at hdepth
    refine ⟨by omega, ⟨fun v hv => hleaf v (.inl hv), by omega, fun h => ?_⟩,
      ⟨fun v hv => hleaf v (.inr hv), by omega, fun h => ?_⟩⟩
    · have hle := hbinary (.left h)
      omega
    · have hle := hbinary (.right h)
      omega
  · rintro ⟨hdepth, hleft, hright⟩
    have hlel := hleft.depth_le
    have hler := hright.depth_le
    refine ⟨fun v hv => ?_, ?_, fun h => ?_⟩
    · rcases List.mem_append.mp hv with hv | hv
      · exact hleft.leaf_inRange v hv
      · exact hright.leaf_inRange v hv
    · rw [Expr.depth]
      omega
    · cases h with
      | root => omega
      | left h =>
        have hle := hleft.binary_le h
        omega
      | right h =>
        have hle := hright.binary_le h
        omega

theorem inRange_of_mem_runs {t : Expr} {depth : ℕ} {words : Script}
    (h : words ∈ (generate depth).runs t) : t.InRange depth := by
  induction t generalizing depth words with
  | leaf v =>
    rw [runs_leaf] at h
    obtain ⟨-, -, _, hv, -⟩ := Language.mem_mul.mp h
    exact inRange_leaf.mpr (Value.inRange_of_mem_runs hv)
  | unary op child ih =>
    cases depth with
    | zero =>
      obtain ⟨v, hv⟩ := runs_zero h
      cases hv
    | succ depth =>
      rw [runs_unary] at h
      obtain ⟨-, -, _, hchild, -⟩ := Language.mem_mul.mp h
      exact inRange_unary.mpr ⟨Nat.le_add_left 1 depth, ih hchild⟩
  | binary op left right ihl ihr =>
    cases depth with
    | zero =>
      obtain ⟨v, hv⟩ := runs_zero h
      cases hv
    | succ depth =>
      rw [runs_binary] at h
      obtain ⟨_, ⟨choice, hchoice, hnumber⟩, _, hnode, -⟩ := Language.mem_mul.mp h
      obtain ⟨-, -, _, hchildren, -⟩ := Language.mem_mul.mp hnode
      obtain ⟨_, hleft, _, hright, -⟩ := Language.mem_mul.mp hchildren
      have hlt : choice < depth + 2 := lt_of_mem_runs_below (Nat.succ_pos _) hnumber
      have hle : 2 ≤ choice := hchoice
      exact inRange_binary.mpr ⟨by omega, ihl hleft, ihr hright⟩

-- The words of a tree if nothing is redrawn: three for a leaf, two for a binary operator and
-- one for a negation.
def cost (t : Expr) : ℕ := 3 * t.leafCount + 2 * t.binaryCount + t.unaryCount

-- The number that decides on a node takes one word, even if every word is a number.
theorem shortest_number {depth choice : ℕ} {choices : Set ℕ} (hdepth : depth < 2 ^ 32)
    (hlt : choice < depth + 1) (hchoice : choice ∈ choices) :
    Shortest ((below .w32 (depth + 1)).runsIn choices) 1 :=
  shortest_below hdepth hlt hchoice

theorem shortest_runs {t : Expr} {depth : ℕ} (hdepth : depth < 2 ^ 32) (h : t.InRange depth) :
    Shortest ((generate depth).runs t) t.cost := by
  induction t generalizing depth with
  | leaf v =>
    have hvalue := Value.shortest_runs (inRange_leaf.mp h)
    rw [runs_leaf]
    exact (shortest_number hdepth (Nat.succ_pos _) (Set.mem_singleton 0)).mul hvalue
  | unary op child ih =>
    obtain ⟨hle, hinRange⟩ := inRange_unary.mp h
    obtain ⟨depth, rfl⟩ := Nat.exists_eq_add_of_le' hle
    have hchild := ih (by omega) hinRange
    have hcost : (unary op child).cost = 1 + child.cost := by
      simp only [cost, leafCount, binaryCount, unaryCount]
      omega
    rw [runs_unary, hcost]
    exact (shortest_number hdepth (by omega) (Set.mem_singleton 1)).mul hchild
  | binary op left right ihl ihr =>
    obtain ⟨hle, hinRangel, hinRanger⟩ := inRange_binary.mp h
    obtain ⟨depth, rfl⟩ := Nat.exists_eq_add_of_le' (Nat.one_le_of_lt hle)
    have hleft := ihl (by omega) hinRangel
    have hright := ihr (by omega) hinRanger
    have hcost : (binary op left right).cost = 1 + (1 + (left.cost + right.cost)) := by
      simp only [cost, leafCount, binaryCount, unaryCount]
      omega
    have htwo : 2 ∈ {choice | 2 ≤ choice} := Nat.le_refl 2
    rw [runs_binary, hcost]
    exact (shortest_number hdepth (by omega) htwo).mul (op.shortest_runs.mul (hleft.mul hright))

theorem exists_run_of_inRange {t : Expr} {depth : ℕ} (hdepth : depth < 2 ^ 32)
    (h : t.InRange depth) : ∃ words : Script, (generate depth).runOn words = (some t, []) := by
  obtain ⟨words, hwords, -⟩ := (shortest_runs hdepth h).1
  exact ⟨words, hwords⟩

-- A tree can be generated if some script is taken as a whole to give it. The first part says
-- which trees these are: the range is necessary in every run, however many words are redrawn,
-- and sufficient even where the number that decides on a node is any 32-bit word.
-- The set of the second part contains the length of every script that gives the tree, and
-- `IsLeast` says that the count of words is one of these lengths and the smallest of them.
theorem exists_run_iff_inRange_and_isLeast_length (depth : ℕ) (hdepth : depth < 2 ^ 32)
    (t : Expr) :
    ((∃ words : Script, (generate depth).runOn words = (some t, [])) ↔ t.InRange depth) ∧
    ((∃ words : Script, (generate depth).runOn words = (some t, [])) →
      IsLeast {n | ∃ words : Script, (generate depth).runOn words = (some t, []) ∧
        words.length = n} (3 * t.leafCount + 2 * t.binaryCount + t.unaryCount)) := by
  have hsound : (∃ words : Script, (generate depth).runOn words = (some t, [])) →
      t.InRange depth := by
    rintro ⟨words, hwords⟩
    exact inRange_of_mem_runs hwords
  exact ⟨⟨hsound, exists_run_of_inRange hdepth⟩, fun h => shortest_runs hdepth (hsound h)⟩

-- The sum of the negated smallest integer and of one half, at the largest depth there is.
theorem isLeast_length_sum :
    let t := binary .add (unary .negate (leaf (.int (-1000))))
      (leaf (.real ⟨0x3fe0000000000000⟩))
    4294967295 < 2 ^ 32 ∧ t.InRange 4294967295 ∧
      IsLeast {n | ∃ words : Script, (generate 4294967295).runOn words = (some t, []) ∧
        words.length = n} 9 := by
  intro t
  have hdepth : 4294967295 < 2 ^ 32 := by decide
  have hhalf : (⟨0x3fe0000000000000⟩ : Binary64) = .ofUnitFraction (2 ^ 52) := by decide
  have hint : (Value.int (-1000)).InRange := ⟨by decide, by decide⟩
  have hreal : (Value.real ⟨0x3fe0000000000000⟩).InRange := by
    rw [hhalf]
    exact Binary64.isPlainFraction_ofUnitFraction (by decide) (by decide)
  have hrange : t.InRange 4294967295 :=
    inRange_binary.mpr ⟨by decide, inRange_unary.mpr ⟨by decide, inRange_leaf.mpr hint⟩,
      inRange_leaf.mpr hreal⟩
  obtain ⟨hiff, hleast⟩ := exists_run_iff_inRange_and_isLeast_length 4294967295 hdepth t
  exact ⟨hdepth, hrange, hleast (hiff.mpr hrange)⟩

end ArithTree.Expr
