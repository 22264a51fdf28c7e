import ArithTree.Proofs.Printer.Writes
import ArithTree.Proofs.Subtrees

namespace ArithTree

-- The word that ends a line.
inductive Head
  | operator (operator : BinaryOperator)
  | value (value : Value)

def Head.text : Head → List Char
  | operator op => op.tag.toList
  | value v => v.numeral

-- A printed line: spaces, negations that share the line, and what they apply to.
structure Line where
  spaces : ℕ
  negations : ℕ
  head : Head

def Line.text (line : Line) : List Char :=
  List.replicate line.spaces ' ' ++
    ((List.replicate line.negations ['n', 'e', 'g', ' ']).flatten ++ (line.head.text ++ ['\n']))

-- The line further in.
def Line.shift (more : ℕ) (line : Line) : Line := { line with spaces := line.spaces + more }

namespace Expr

-- The head of the line that a node ends, if it ends one.
def head? : Expr → Option Head
  | leaf value => some (.value value)
  | unary _ _ => none
  | binary operator _ _ => some (.operator operator)

-- The lines of a tree whose root stands behind the given spaces and negations of its line.
def lines : Expr → (spaces negations indent : ℕ) → List Line
  | leaf value, spaces, negations, _ => [⟨spaces, negations, .value value⟩]
  | unary _ child, spaces, negations, indent => child.lines spaces (negations + 1) (indent + 1)
  | binary operator left right, spaces, negations, indent =>
    ⟨spaces, negations, .operator operator⟩ ::
      (left.lines (indent + 1) 0 (indent + 1) ++ right.lines (indent + 1) 0 (indent + 1))

-- The spaces in front are all that depends on where a tree starts.
theorem render_eq_append (e : Expr) (indent : ℕ) (newline : Bool) :
    e.render indent newline =
      List.replicate (if newline then indent else 1) ' ' ++ (e.render indent false).tail := by
  cases e <;> rfl

theorem flatMap_text_lines (e : Expr) (spaces negations indent : ℕ) :
    (e.lines spaces negations indent).flatMap Line.text =
      List.replicate spaces ' ' ++ ((List.replicate negations ['n', 'e', 'g', ' ']).flatten ++
        (e.render indent false).tail) := by
  induction e generalizing spaces negations indent with
  | leaf value =>
    rw [lines, List.flatMap_singleton]
    rfl
  | unary operator child ih =>
    cases operator
    -- the child goes on behind the space that ends the negation
    have htail : ((unary .negate child).render indent false).tail =
        ['n', 'e', 'g', ' '] ++ (child.render (indent + 1) false).tail := by
      rw [render, child.render_eq_append]
      rfl
    rw [lines, ih, htail, List.replicate_succ', List.flatten_append, List.append_assoc]
    rfl
  | binary operator left right ihl ihr =>
    -- a child starts a line of its own, without negations in front of it
    have hchild (child : Expr) : List.replicate (indent + 1) ' ' ++
        ((List.replicate 0 ['n', 'e', 'g', ' ']).flatten ++
          (child.render (indent + 1) false).tail) = child.render (indent + 1) true :=
      (child.render_eq_append (indent + 1) true).symm
    have htail : ((binary operator left right).render indent false).tail =
        operator.tag.toList ++ '\n' ::
          (left.render (indent + 1) true ++ right.render (indent + 1) true) := rfl
    rw [lines, List.flatMap_cons, List.flatMap_append, ihl, ihr, hchild, hchild, htail]
    simp [Line.text, Head.text]

-- The text of a tree is that of its lines.
theorem render_eq_flatMap_lines (e : Expr) (indent : ℕ) (newline : Bool) :
    e.render indent newline =
      (e.lines (if newline then indent else 1) 0 indent).flatMap Line.text := by
  rw [flatMap_text_lines, e.render_eq_append]
  rfl

example :
    (binary .multiply (unary .negate (binary .subtract (leaf (.int 1)) (leaf (.int (-2)))))
      (leaf (.int 9))).lines 0 0 0 =
    [⟨0, 0, .operator .multiply⟩, ⟨1, 1, .operator .subtract⟩, ⟨3, 0, .value (.int 1)⟩,
      ⟨3, 0, .value (.int (-2))⟩, ⟨1, 0, .value (.int 9)⟩] := rfl

theorem length_lines (e : Expr) (spaces negations indent : ℕ) :
    (e.lines spaces negations indent).length = e.lineCount := by
  induction e generalizing spaces negations indent with
  | leaf => rfl
  | unary operator child ih => exact ih _ _ _
  | binary operator left right ihl ihr =>
    rw [lines, List.length_cons, List.length_append, ihl, ihr]
    simp only [lineCount, leafCount, binaryCount]
    omega

-- The spaces in front belong to the first line alone. All others stand further in than the root.
theorem exists_lines_eq_cons (e : Expr) (negations indent : ℕ) :
    ∃ negations' head rest,
      (∀ spaces, e.lines spaces negations indent = ⟨spaces, negations', head⟩ :: rest) ∧
      ∀ line ∈ rest, indent < line.spaces := by
  induction e generalizing negations indent with
  | leaf value => exact ⟨negations, .value value, [], fun _ => rfl, by simp⟩
  | unary operator child ih =>
    obtain ⟨negations', head, rest, hlines, hrest⟩ := ih (negations + 1) (indent + 1)
    exact ⟨negations', head, rest, hlines, fun line hline => Nat.lt_of_succ_lt (hrest line hline)⟩
  | binary operator left right ihl ihr =>
    refine ⟨negations, .operator operator, _, fun _ => rfl, fun line hline => ?_⟩
    have hchild {child : Expr} (ih : ∃ negations' head rest,
        (∀ spaces, child.lines spaces 0 (indent + 1) = ⟨spaces, negations', head⟩ :: rest) ∧
        ∀ line ∈ rest, indent + 1 < line.spaces)
        (hline : line ∈ child.lines (indent + 1) 0 (indent + 1)) : indent < line.spaces := by
      obtain ⟨negations', head, rest, hlines, hrest⟩ := ih
      rw [hlines] at hline
      rcases List.mem_cons.mp hline with rfl | hline
      · exact Nat.lt_succ_self indent
      · exact Nat.lt_of_succ_lt (hrest line hline)
    rcases List.mem_append.mp hline with hline | hline
    · exact hchild (ihl 0 (indent + 1)) hline
    · exact hchild (ihr 0 (indent + 1)) hline

-- A tree that starts further in has all its lines further in by as much.
theorem lines_add (e : Expr) (spaces negations indent more : ℕ) :
    e.lines (spaces + more) negations (indent + more) =
      (e.lines spaces negations indent).map (·.shift more) := by
  induction e generalizing spaces negations indent with
  | leaf => rfl
  | unary operator child ih =>
    rw [lines, Nat.add_right_comm]
    exact ih spaces (negations + 1) (indent + 1)
  | binary operator left right ihl ihr =>
    rw [lines, lines, List.map_cons, List.map_append, Nat.add_right_comm, ihl, ihr]
    rfl

-- A line ends with the head of a node. Spaces and negations count the same way down to it, a
-- negation being one level and the children of a binary operator starting one space further in.
theorem exists_hasAt_of_mem_lines {e : Expr} {spaces negations : ℕ} {line : Line}
    (h : line ∈ e.lines spaces negations (spaces + negations)) :
    ∃ distance node, e.HasAt distance node ∧ node.head? = some line.head ∧
      line.spaces + line.negations = spaces + negations + distance := by
  induction e generalizing spaces negations with
  | leaf value =>
    rw [lines, List.mem_singleton] at h
    subst h
    exact ⟨0, _, .root _, rfl, rfl⟩
  | unary operator child ih =>
    rw [lines, Nat.add_assoc] at h
    obtain ⟨distance, node, hnode, hhead, hcolumn⟩ := ih h
    exact ⟨distance + 1, node, .child hnode, hhead, by omega⟩
  | binary operator left right ihl ihr =>
    rw [lines, List.mem_cons, List.mem_append] at h
    rcases h with rfl | h | h
    · exact ⟨0, _, .root _, rfl, rfl⟩
    · obtain ⟨distance, node, hnode, hhead, hcolumn⟩ := @ihl (spaces + negations + 1) 0 h
      exact ⟨distance + 1, node, .left hnode, hhead, by omega⟩
    · obtain ⟨distance, node, hnode, hhead, hcolumn⟩ := @ihr (spaces + negations + 1) 0 h
      exact ⟨distance + 1, node, .right hnode, hhead, by omega⟩

end Expr

end ArithTree
