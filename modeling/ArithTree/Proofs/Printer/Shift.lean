import ArithTree.Proofs.Printer.WholeLines

namespace ArithTree.Expr

open Printing

variable {e : Expr} {indent : ℕ}

-- Where a tree may be printed from some indent, it may be printed from the left margin and behind
-- the start of a line. From the indent, the text of the left margin is shifted to the right. Behind
-- the start of a line, one space stands in place of the spaces in front of the first line.
theorem print_shifts_text (hok : ((e.print indent true).runOn .unlimited).1 = .ok ()) :
    ((e.print 0 true).runOn .unlimited).1 = .ok () ∧
    ((e.print indent false).runOn .unlimited).1 = .ok () ∧
    ∃ (first : List Char) (rest : List (List Char)),
      (∀ row ∈ first :: rest, '\n' ∉ row) ∧ first.head? ≠ some ' ' ∧
      ((e.print 0 true).runOn .unlimited).2.text = String.ofList (ofLines (first :: rest)) ∧
      ((e.print indent true).runOn .unlimited).2.text =
        String.ofList (ofLines ((first :: rest).map (List.replicate indent ' ' ++ ·))) ∧
      ((e.print indent false).runOn .unlimited).2.text =
        String.ofList (ofLines
          ((' ' :: first) :: rest.map (List.replicate indent ' ' ++ ·))) := by
  have hfits := runOn_print_eq_ok_iff.mp hok
  have hmargin : e.Fits 0 true := hfits.of_indent_le (Nat.zero_le _) (Nat.zero_le maxWidth)
  have hbehind : e.Fits indent false := hfits.of_indent_le le_rfl (show 1 ≤ maxWidth by decide)
  -- the same line comes first in all three texts, behind other spaces
  obtain ⟨negations, head, rest, hlines, -⟩ := e.exists_lines_eq_cons 0 0
  obtain ⟨negations', head', rest', hlines', -⟩ := e.exists_lines_eq_cons 0 indent
  have hshift := e.lines_add 0 0 0 indent
  rw [Nat.zero_add, hlines, hlines', List.map_cons, List.cons.injEq] at hshift
  obtain ⟨hfirst, rfl⟩ := hshift
  obtain ⟨-, rfl, rfl⟩ := Line.mk.inj hfirst
  have hrows : (rest.map (·.shift indent)).map Line.row =
      (rest.map Line.row).map (List.replicate indent ' ' ++ ·) := by
    rw [List.map_map, List.map_map]
    exact List.map_congr_left fun line _ => line.row_shift indent
  rw [runOn_print_of_fits hfits, runOn_print_of_fits hmargin, runOn_print_of_fits hbehind]
  simp only [if_true, Bool.false_eq_true, if_false, hlines, hlines', List.map_cons, hrows]
  refine ⟨trivial, trivial, Line.words ⟨0, negations', head'⟩, rest.map Line.row, ?_, Line.head?_words _,
    rfl, rfl, rfl⟩
  intro row hrow
  obtain ⟨line, -, rfl⟩ : ∃ line ∈ (⟨0, negations', head'⟩ :: rest : List Line), line.row = row := by
    rwa [← List.mem_map]
  exact line.newline_notMem_row

-- A negated sum, three spaces in.
theorem print_shifts_text_negated_sum :
    let e := unary .negate (binary .add (leaf (.int 1)) (leaf (.int (-2))))
    ((e.print 3 true).runOn .unlimited).1 = .ok () ∧
    ((e.print 0 true).runOn .unlimited).1 = .ok () ∧
    ((e.print 3 false).runOn .unlimited).1 = .ok () ∧
    ∃ (first : List Char) (rest : List (List Char)),
      (∀ row ∈ first :: rest, '\n' ∉ row) ∧ first.head? ≠ some ' ' ∧
      "neg add\n  1\n  -2\n" = String.ofList (ofLines (first :: rest)) ∧
      "   neg add\n     1\n     -2\n" =
        String.ofList (ofLines ((first :: rest).map (List.replicate 3 ' ' ++ ·))) ∧
      " neg add\n     1\n     -2\n" =
        String.ofList (ofLines ((' ' :: first) :: rest.map (List.replicate 3 ' ' ++ ·))) := by
  intro e
  have hok : ((e.print 3 true).runOn .unlimited).1 = .ok () := rfl
  have hmargin : ((e.print 0 true).runOn .unlimited).2.text = "neg add\n  1\n  -2\n" := by decide
  have hindent : ((e.print 3 true).runOn .unlimited).2.text =
      "   neg add\n     1\n     -2\n" := by decide
  have hbehind : ((e.print 3 false).runOn .unlimited).2.text =
      " neg add\n     1\n     -2\n" := by decide
  rw [← hmargin, ← hindent, ← hbehind]
  exact ⟨hok, print_shifts_text hok⟩

end ArithTree.Expr
