import ArithTree.Proofs.Printer.ReadBack
import ArithTree.Proofs.Printer.WholeLines

namespace ArithTree

namespace Head

def isOperator : Head → Bool
  | operator _ => true
  | value _ => false

def value? : Head → Option Value
  | operator _ => none
  | value v => some v

-- The two kinds of head have no text in common.
theorem text_operator_ne_text_value (op : BinaryOperator) (v : Value) :
    (operator op).text ≠ (value v).text :=
  (Value.numeral_ne_of_read?_eq_none op.read?_tag).symm

end Head

namespace Expr

variable (e : Expr) (spaces negations indent : ℕ)

theorem countP_isOperator_lines :
    (e.lines spaces negations indent).countP (·.head.isOperator) = e.binaryCount := by
  induction e generalizing spaces negations indent with
  | leaf => rfl
  | unary operator child ih => exact ih _ _ _
  | binary operator left right ihl ihr =>
    rw [lines, List.countP_cons_of_pos rfl, List.countP_append, ihl, ihr, binaryCount]

theorem filterMap_value?_lines :
    (e.lines spaces negations indent).filterMap (·.head.value?) = e.leaves := by
  induction e generalizing spaces negations indent with
  | leaf => rfl
  | unary operator child ih => exact ih _ _ _
  | binary operator left right ihl ihr =>
    rw [lines, List.filterMap_cons_none rfl, List.filterMap_append, ihl, ihr, leaves]

theorem countP_value_lines :
    (e.lines spaces negations indent).countP (!·.head.isOperator) = e.leafCount := by
  have hlength := List.length_eq_countP_add_countP (·.head.isOperator)
    (l := e.lines spaces negations indent)
  rw [length_lines, lineCount, countP_isOperator_lines] at hlength
  simp only [Bool.not_eq_true, Bool.decide_eq_false] at hlength
  omega

-- The negations in front of the root are on its first line.
theorem sum_negations_lines :
    ((e.lines spaces negations indent).map Line.negations).sum = negations + e.unaryCount := by
  induction e generalizing spaces negations indent with
  | leaf => rfl
  | unary operator child ih =>
    rw [lines, ih, unaryCount]
    omega
  | binary operator left right ihl ihr =>
    simp only [lines, List.map_cons, List.sum_cons, List.map_append, List.sum_append, ihl, ihr,
      unaryCount]
    omega

variable {e indent} {newline : Bool}

-- A printed tree has a line for each leaf and each binary operator, which is one less than twice
-- the leaves. The line ends with the leaf or the operator, and the leaves come in their order.
-- The negations are all in front of them.
theorem exists_lines_print (hok : ((e.print indent newline).runOn .unlimited).1 = .ok ()) :
    ∃ lines : List Line,
      ((e.print indent newline).runOn .unlimited).2.text =
        String.ofList (lines.flatMap Line.text) ∧
      (∀ line ∈ lines, line.head.text ≠ [] ∧ ∀ c ∈ line.head.text, isVisible c) ∧
      (∀ op v, Head.text (.operator op) ≠ Head.text (.value v)) ∧
      lines.length = e.lineCount ∧ e.lineCount = 2 * e.leafCount - 1 ∧
      lines.countP (·.head.isOperator) = e.binaryCount ∧
      lines.countP (!·.head.isOperator) = e.leafCount ∧
      lines.filterMap (·.head.value?) = e.leaves ∧
      (lines.map Line.negations).sum = e.unaryCount := by
  have hfits := runOn_print_eq_ok_iff.mp hok
  have hcount := e.lineCount_add_one
  refine ⟨e.lines (if newline then indent else 1) 0 indent, ?_,
    fun line _ => ⟨line.head.text_ne_nil, fun _ => Head.isVisible_of_mem_text⟩,
    Head.text_operator_ne_text_value, e.length_lines _ _ _, by omega,
    e.countP_isOperator_lines _ _ _, e.countP_value_lines _ _ _, e.filterMap_value?_lines _ _ _, ?_⟩
  · rw [runOn_print_of_fits hfits, ofLines_map_row]
  · rw [sum_negations_lines, Nat.zero_add]

-- A product of a doubly negated leaf and a negated sum, behind the start of a line.
theorem exists_lines_print_product :
    let e := binary .multiply (unary .negate (unary .negate (leaf (.real ⟨0x3fe0000000000000⟩))))
      (unary .negate (binary .add (leaf (.int 1)) (leaf (.int (-2)))))
    ((e.print 2 false).runOn .unlimited).1 = .ok () ∧
    ∃ lines : List Line,
      " mult\n   neg neg 0.5\n   neg add\n     1\n     -2\n" =
        String.ofList (lines.flatMap Line.text) ∧
      (∀ line ∈ lines, line.head.text ≠ [] ∧ ∀ c ∈ line.head.text, isVisible c) ∧
      (∀ op v, Head.text (.operator op) ≠ Head.text (.value v)) ∧
      lines.length = 5 ∧ 5 = 2 * 3 - 1 ∧ lines.countP (·.head.isOperator) = 2 ∧
      lines.countP (!·.head.isOperator) = 3 ∧
      lines.filterMap (·.head.value?) =
        [.real ⟨0x3fe0000000000000⟩, .int 1, .int (-2)] ∧
      (lines.map Line.negations).sum = 3 := by
  intro e
  have hok : ((e.print 2 false).runOn .unlimited).1 = .ok () := rfl
  have htext : ((e.print 2 false).runOn .unlimited).2.text =
      " mult\n   neg neg 0.5\n   neg add\n     1\n     -2\n" := by decide +kernel
  rw [← htext]
  exact ⟨hok, exists_lines_print hok⟩

end Expr

end ArithTree
