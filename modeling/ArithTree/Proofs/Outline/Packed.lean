import ArithTree.Expr.Outline
import ArithTree.Proofs.Printer.ReadBack

namespace ArithTree

-- Leaves out each comma that stands directly before a closing parenthesis.
def withoutLastCommas : List Char → List Char
  | [] => []
  | c :: cs =>
    if c = ',' ∧ cs.head? = some ')' then withoutLastCommas cs else c :: withoutLastCommas cs

theorem withoutLastCommas_cons {c : Char} (h : c ≠ ',') (rest : List Char) :
    withoutLastCommas (c :: rest) = c :: withoutLastCommas rest :=
  if_neg fun hcomma => h hcomma.1

theorem withoutLastCommas_append {cs : List Char} (h : ',' ∉ cs) (rest : List Char) :
    withoutLastCommas (cs ++ rest) = cs ++ withoutLastCommas rest := by
  induction cs with
  | nil => rfl
  | cons c cs ih =>
    rw [List.mem_cons, not_or] at h
    rw [List.cons_append, withoutLastCommas_cons (Ne.symm h.1), ih h.2, List.cons_append]

theorem withoutLastCommas_comma_close (rest : List Char) :
    withoutLastCommas (',' :: ')' :: rest) = ')' :: withoutLastCommas rest := by
  simp [withoutLastCommas]

-- Line ends between rows are lost with all other blanks.
theorem filter_intercalate_newline (rows : List (List Char)) :
    (['\n'].intercalate rows).filter Expr.isWordChar =
      (rows.map (List.filter Expr.isWordChar)).flatten := by
  induction rows with
  | nil => rfl
  | cons row rows ih =>
    cases rows with
    | nil => simp [List.intercalate]
    | cons next rows =>
      have hend : Expr.isWordChar '\n' = false := by decide
      rw [List.map_cons, List.flatten_cons, ← ih]
      simp [List.intercalate, hend]

-- The characters of names and numerals in an outline. The marks between these are other ones.
def isAtomChar (c : Char) : Bool := isVisible c && !(['(', ')', ','].contains c)

def IsAtom (cs : List Char) : Prop := ∀ c ∈ cs, isAtomChar c

namespace IsAtom

variable {cs : List Char} {c : Char}

theorem of_all (h : cs.all isAtomChar) : IsAtom cs := List.all_eq_true.mp h

theorem notMem (h : IsAtom cs) (hc : isAtomChar c = false) : c ∉ cs := by
  intro hmem
  rw [h c hmem] at hc
  cases hc

theorem isVisible (h : IsAtom cs) (hmem : c ∈ cs) : isVisible c :=
  (Bool.and_eq_true_iff.mp (h c hmem)).1

theorem filter_eq (h : IsAtom cs) {p : Char → Bool} (hp : ∀ c, ArithTree.isVisible c → p c) :
    cs.filter p = cs :=
  List.filter_eq_self.mpr fun c hc => hp c (h.isVisible hc)

end IsAtom

theorem isAtomChar_of_isNumeralChar {c : Char} (h : Binary64.isNumeralChar c) : isAtomChar c := by
  rw [Binary64.isNumeralChar, Bool.or_eq_true] at h
  rcases h with hdigit | hmark
  · have hnot : c ∉ ['(', ')', ','] := by
      simp only [List.mem_cons, List.not_mem_nil, or_false]
      rintro (rfl | rfl | rfl) <;> exact absurd hdigit (by decide)
    simp [isAtomChar, isVisible_of_isDigit hdigit, hnot]
  · revert hmark
    simp only [List.contains_cons, List.contains_nil, Bool.or_false, Bool.or_eq_true, beq_iff_eq]
    rintro (rfl | rfl | rfl | rfl | rfl | rfl | rfl | rfl) <;> rfl

theorem Value.isAtom_numeral (v : Value) : IsAtom v.numeral :=
  fun _ hc => isAtomChar_of_isNumeralChar (v.numeral_chars hc)

theorem Value.isAtom_kind (v : Value) : IsAtom v.kind.toList := by
  cases v with
  | int => exact .of_all (by decide : "Int".toList.all isAtomChar)
  | real => exact .of_all (by decide : "Real".toList.all isAtomChar)

theorem UnaryOperator.isAtom_name (op : UnaryOperator) : IsAtom op.name.toList := by
  have hall : op.name.toList.all isAtomChar := by cases op; decide
  exact .of_all hall

theorem BinaryOperator.isAtom_name (op : BinaryOperator) : IsAtom op.name.toList := by
  have hall : op.name.toList.all isAtomChar := by cases op <;> decide
  exact .of_all hall

namespace Expr

-- An outline without its blanks, with a text behind the last field of every constructor.
def packed (last : List Char) : Expr → List Char
  | leaf value =>
    ['L', 'e', 'a', 'f', '('] ++ (value.kind.toList ++ '(' ::
      (value.numeral ++ (last ++ ')' :: (last ++ [')']))))
  | unary operator child =>
    ['U', 'n', 'a', 'r', 'y', '('] ++ (operator.name.toList ++ ',' ::
      (child.packed last ++ (last ++ [')'])))
  | binary operator left right =>
    ['B', 'i', 'n', 'a', 'r', 'y', '('] ++ (operator.name.toList ++ ',' ::
      (left.packed last ++ ',' :: (right.packed last ++ (last ++ [')']))))

theorem toList_marks :
    "Leaf(".toList = ['L', 'e', 'a', 'f', '('] ∧
    "Unary(".toList = ['U', 'n', 'a', 'r', 'y', '('] ∧
    "Binary(".toList = ['B', 'i', 'n', 'a', 'r', 'y', '('] ∧
    "(".toList = ['('] ∧ ")".toList = [')'] ∧ "))".toList = [')', ')'] ∧
    ",".toList = [','] ∧ ", ".toList = [',', ' '] ∧ "),".toList = [')', ','] := by
  decide

-- Nothing stands behind the last fields of the outline on one line.
theorem filter_outline (e : Expr) : e.outline.toList.filter (· != ' ') = e.packed [] := by
  have hvisible (c : Char) (hc : isVisible c) : (c != ' ') = true := by
    rw [bne_iff_ne]
    rintro rfl
    exact absurd hc (by decide)
  induction e with
  | leaf value =>
    simp [outline, packed, toList_marks, value.isAtom_kind.filter_eq hvisible, value.toList_text,
      value.isAtom_numeral.filter_eq hvisible]
  | unary operator child ih =>
    simp [outline, packed, toList_marks, operator.isAtom_name.filter_eq hvisible, ih]
  | binary operator left right ihl ihr =>
    simp [outline, packed, toList_marks, operator.isAtom_name.filter_eq hvisible, ihl, ihr]

-- A comma stands behind them in the outline with one field to a line.
theorem flatMap_toList_outlineLines (e : Expr) (level : ℕ) (tail : String) :
    (e.outlineLines level tail).flatMap (fun line => line.2.toList) =
      e.packed [','] ++ tail.toList := by
  induction e generalizing level tail with
  | leaf value => simp [outlineLines, packed, toList_marks, value.toList_text]
  | unary operator child ih => simp [outlineLines, packed, toList_marks, ih]
  | binary operator left right ihl ihr => simp [outlineLines, packed, toList_marks, ihl, ihr]

theorem isVisible_of_mem_packed {last : List Char} (hlast : ∀ c ∈ last, isVisible c) (e : Expr) :
    ∀ c ∈ e.packed last, isVisible c := by
  have hopen : isVisible '(' := by decide
  have hclose : isVisible ')' := by decide
  have hcomma : isVisible ',' := by decide
  induction e with
  | leaf value =>
    simp only [packed, List.forall_mem_append, List.forall_mem_cons, List.not_mem_nil,
      false_imp_iff, implies_true, and_true]
    exact ⟨by decide, fun _ => value.isAtom_kind.isVisible, hopen,
      fun _ => value.isAtom_numeral.isVisible, hlast, hclose, hlast, hclose⟩
  | unary operator child ih =>
    simp only [packed, List.forall_mem_append, List.forall_mem_cons, List.not_mem_nil,
      false_imp_iff, implies_true, and_true]
    exact ⟨by decide, fun _ => operator.isAtom_name.isVisible, hcomma, ih, hlast, hclose⟩
  | binary operator left right ihl ihr =>
    simp only [packed, List.forall_mem_append, List.forall_mem_cons, List.not_mem_nil,
      false_imp_iff, implies_true, and_true]
    exact ⟨by decide, fun _ => operator.isAtom_name.isVisible, hcomma, ihl, hcomma, ihr, hlast,
      hclose⟩

-- The rows of the outline with one field to a line.
def outlineRow (line : ℕ × String) : List Char := List.replicate (4 * line.1) ' ' ++ line.2.toList

def outlineRows (e : Expr) : List (List Char) := (e.outlineLines 0 "").map outlineRow

theorem toList_outlinePretty (e : Expr) :
    e.outlinePretty.toList = ['\n'].intercalate e.outlineRows := by
  have hend : "\n".toList = ['\n'] := by decide
  have hrow (line : ℕ × String) : (outlineLine line).toList = outlineRow line := by
    rw [outlineLine, String.toList_append, String.toList_ofList, outlineRow]
  rw [outlinePretty, String.toList_intercalate, hend, List.map_map, outlineRows]
  congr 1
  exact List.map_congr_left fun line _ => hrow line

theorem isVisible_of_mem_outlineLines {e : Expr} {line : ℕ × String}
    (hline : line ∈ e.outlineLines 0 "") {c : Char} (hc : c ∈ line.2.toList) : isVisible c := by
  have hmem : c ∈ e.packed [','] ++ "".toList := by
    rw [← e.flatMap_toList_outlineLines 0 ""]
    exact List.mem_flatMap_of_mem hline hc
  rw [String.toList_empty, List.append_nil] at hmem
  exact e.isVisible_of_mem_packed (List.all_eq_true.mp rfl) c hmem

theorem filter_outlinePretty (e : Expr) :
    e.outlinePretty.toList.filter isWordChar = e.packed [','] := by
  have hrow : ∀ line ∈ e.outlineLines 0 "",
      (outlineRow line).filter isWordChar = line.2.toList := by
    intro line hline
    have hspace : isWordChar ' ' = false := by decide
    have hvisible : ∀ c ∈ line.2.toList, isWordChar c :=
      fun c hc => isWordChar_of_isVisible (isVisible_of_mem_outlineLines hline hc)
    rw [outlineRow, List.filter_append, List.filter_replicate_of_neg (by simp [hspace]),
      List.nil_append, List.filter_eq_self.mpr hvisible]
  have hrows : e.outlineRows.map (List.filter isWordChar) =
      (e.outlineLines 0 "").map fun line => line.2.toList := by
    rw [outlineRows, List.map_map]
    exact List.map_congr_left hrow
  rw [toList_outlinePretty, filter_intercalate_newline, hrows, ← List.flatMap_def,
    flatMap_toList_outlineLines, String.toList_empty, List.append_nil]

-- The comma in front of another field stays.
theorem withoutLastCommas_comma_packed (e : Expr) (last rest : List Char) :
    withoutLastCommas (',' :: (e.packed last ++ rest)) =
      ',' :: withoutLastCommas (e.packed last ++ rest) := by
  have hhead : (e.packed last ++ rest).head? ≠ some ')' := by cases e <;> simp [packed]
  exact if_neg fun hclose => hhead hclose.2

-- The two outlines differ in the commas behind the last fields, and these are all that a closing
-- parenthesis follows.
theorem withoutLastCommas_packed_append (e : Expr) (rest : List Char) :
    withoutLastCommas (e.packed [','] ++ rest) = e.packed [] ++ withoutLastCommas rest := by
  have hcomma : isAtomChar ',' = false := by decide
  induction e generalizing rest with
  | leaf value =>
    simp [packed, withoutLastCommas_cons, withoutLastCommas_comma_close,
      withoutLastCommas_append (value.isAtom_kind.notMem hcomma),
      withoutLastCommas_append (value.isAtom_numeral.notMem hcomma)]
  | unary operator child ih =>
    simp [packed, withoutLastCommas_cons, withoutLastCommas_comma_close,
      withoutLastCommas_append (operator.isAtom_name.notMem hcomma),
      withoutLastCommas_comma_packed, ih]
  | binary operator left right ihl ihr =>
    simp [packed, withoutLastCommas_cons, withoutLastCommas_comma_close,
      withoutLastCommas_append (operator.isAtom_name.notMem hcomma),
      withoutLastCommas_comma_packed, ihl, ihr]

-- Both outlines are the same but for blanks and the commas behind last fields.
theorem withoutLastCommas_filter_outlinePretty (e : Expr) :
    withoutLastCommas (e.outlinePretty.toList.filter isWordChar) = e.packed [] := by
  have hpacked := e.withoutLastCommas_packed_append []
  rwa [List.append_nil, withoutLastCommas, List.append_nil, ← filter_outlinePretty] at hpacked

end Expr

end ArithTree
