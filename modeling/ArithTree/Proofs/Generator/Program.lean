import ArithTree.Proofs.Binary64.PlainNumeral
import ArithTree.Proofs.Generator.Counts
import ArithTree.Proofs.Printer.Lines
import ArithTree.Proofs.Printer.Truncation

namespace ArithTree

-- The numerals of generated programs: whole numbers of the range, and fractions without a sign
-- and without an exponent.
inductive PlainNumeral : List Char → Prop
  | int (n : ℤ) (hlow : -1000 ≤ n) (hhigh : n ≤ 1000) : PlainNumeral (Decimal.ofInt n)
  | real (digits : List Char) (hsome : digits ≠ []) (hdigits : digits.all Char.isDigit) :
      PlainNumeral ('0' :: '.' :: digits)

theorem Value.InRange.plainNumeral {v : Value} (h : v.InRange) : PlainNumeral v.numeral := by
  cases v with
  | int n => exact .int n.toInt h.1 h.2
  | real x =>
    obtain ⟨k, hplain, hlt, rfl⟩ := Binary64.isPlainFraction_iff.mp h
    obtain ⟨digits, hsome, hdigits, hnumeral⟩ :=
      Binary64.exists_numeral_ofUnitFraction_eq hplain hlt
    rw [numeral, hnumeral]
    exact .real digits hsome hdigits

-- A line of a program from some depth. Operators end at least two columns before the depth.
structure Line.IsPlain (line : Line) (depth : ℕ) : Prop where
  column_le : line.spaces + line.negations ≤ depth
  operator_le {op : BinaryOperator} (h : line.head = .operator op) :
    line.spaces + line.negations + 2 ≤ depth
  plainNumeral {v : Value} (h : line.head = .value v) : PlainNumeral v.numeral

namespace Expr

open Printing

theorem eq_leaf_of_head? {t : Expr} {v : Value} (h : t.head? = some (.value v)) : t = leaf v := by
  cases t <;> simp_all [head?]

theorem eq_binary_of_head? {t : Expr} {op : BinaryOperator} (h : t.head? = some (.operator op)) :
    ∃ left right, t = binary op left right := by
  cases t <;> simp_all [head?]

theorem InRange.isPlain {t : Expr} {depth : ℕ} (h : t.InRange depth) {line : Line}
    (hline : line ∈ t.lines 0 0 0) : line.IsPlain depth := by
  obtain ⟨distance, node, hnode, hhead, hcolumn⟩ := exists_hasAt_of_mem_lines hline
  have hdistance := hnode.add_depth_le
  have hdepth := h.depth_le
  refine ⟨by omega, fun {op} hop => ?_, fun {v} hv => ?_⟩
  · rw [hop] at hhead
    obtain ⟨left, right, rfl⟩ := eq_binary_of_head? hhead
    have hle := h.binary_le hnode
    omega
  · rw [hv] at hhead
    obtain rfl := eq_leaf_of_head? hhead
    exact (h.leaf_inRange v hnode.mem_leaves).plainNumeral

-- No program from a depth that may be requested comes near the largest width.
theorem InRange.fits {t : Expr} {depth : ℕ} (h : t.InRange depth) (hdepth : depth ≤ maxWidth) :
    t.Fits 0 true := by
  have hle := h.depth_le
  exact fits_of_le true (by omega)

-- From the request of a depth to the text: whatever the source is, the program of a generated
-- tree is the header and one line for each leaf and each binary operator, and nothing stops it
-- from being written. The line of a node at column `c` needs a depth of `c`, or `c + 2` for
-- a binary operator.
theorem exists_lines_printProgram {σ : Type} [Source σ] {depth : ℕ} {s s' : σ} {t : Expr}
    (hdepth : checkDepth depth = .ok depth) (hrun : (generate depth).runOn s = (some t, s')) :
    ∃ lines : List Line,
      t.printProgram.runOn .unlimited =
        (.ok (), ⟨String.ofList ("print\n".toList ++ lines.flatMap Line.text), .unlimited⟩) ∧
      lines.length = t.leafCount + t.binaryCount ∧ ∀ line ∈ lines, line.IsPlain depth := by
  have hrange := inRange_of_runOn hrun
  have hmax : maxDepth ≤ maxWidth := by decide
  have hfits := hrange.fits ((checkDepth_eq_ok_iff.mp hdepth).trans hmax)
  have hwrites := writes_printProgram (writes_print_of_fits hfits)
  refine ⟨t.lines 0 0 0, ?_, t.length_lines 0 0 0, fun line hline => hrange.isPlain hline⟩
  rw [hwrites.runOn_unlimited, render_eq_flatMap_lines]
  rfl

-- The sum of the negated smallest integer and of one half.
theorem exists_lines_printProgram_sum :
    let words : Script := [2863311531, 0, 2147483648, 0, 0, 0, 0, 9223372036854775808,
      9223372036854775808]
    let t := binary .add (unary .negate (leaf (.int (-1000))))
      (leaf (.real ⟨0x3fe0000000000000⟩))
    checkDepth 2 = .ok 2 ∧ (generate 2).runOn words = (some t, []) ∧
    (t.printProgram.runOn .unlimited).2.text = "print\nadd\n neg -1000\n 0.5\n" ∧
    ∃ lines : List Line,
      t.printProgram.runOn .unlimited =
        (.ok (), ⟨String.ofList ("print\n".toList ++ lines.flatMap Line.text), .unlimited⟩) ∧
      lines.length = t.leafCount + t.binaryCount ∧ ∀ line ∈ lines, line.IsPlain 2 := by
  intro words t
  have hdepth : checkDepth 2 = .ok 2 := by decide
  have hrun : (generate 2).runOn words = (some t, []) := by decide +kernel
  exact ⟨hdepth, hrun, by decide +kernel, exists_lines_printProgram hdepth hrun⟩

end Expr

end ArithTree
