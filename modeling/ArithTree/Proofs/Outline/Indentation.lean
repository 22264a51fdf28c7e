import ArithTree.Proofs.Outline.Packed
import ArithTree.Proofs.Printer.WholeLines

namespace ArithTree

-- The parentheses that a row closes before it says anything else, one or none.
def closesFirst (row : List Char) : ℕ :=
  if (row.dropWhile (· == ' ')).head? = some ')' then 1 else 0

-- Every row stands four spaces further in for each open parenthesis, without the one that the row
-- closes first. Before all rows `first` parentheses are open, and behind them `last`.
def Nested : (first last : ℕ) → List (List Char) → Prop
  | first, last, [] => first = last
  | first, last, row :: rows =>
    leadingSpaces row + 4 * closesFirst row = 4 * first ∧
      ∃ next, first + row.count '(' = next + row.count ')' ∧ Nested next last rows

variable {first last level : ℕ} {rows : List (List Char)}

-- The open parentheses of a row are those that the rows before it open and do not close.
theorem Nested.leadingSpaces_eq {before behind : List (List Char)} {row : List Char}
    (h : Nested first last (before ++ row :: behind)) :
    leadingSpaces row + 4 * (before.flatten.count ')' + closesFirst row) =
      4 * (first + before.flatten.count '(') := by
  induction before generalizing first with
  | nil =>
    have hrow := h.1
    simp only [List.flatten_nil, List.count_nil]
    omega
  | cons other before ih =>
    obtain ⟨-, next, hnext, hrows⟩ := h
    have hrow := ih hrows
    rw [List.flatten_cons, List.count_append, List.count_append]
    omega

theorem closesFirst_replicate_append (n : ℕ) {text : List Char} (h : text.head? ≠ some ' ') :
    closesFirst (List.replicate n ' ' ++ text) = if text.head? = some ')' then 1 else 0 := by
  rw [closesFirst, dropWhile_replicate_append n h]

-- A row from its text: how many parentheses are open before it and behind it.
theorem nested_cons {text : List Char} {next : ℕ} (hhead : text.head? ≠ some ' ')
    (hfirst : first = level + if text.head? = some ')' then 1 else 0)
    (hnext : first + text.count '(' = next + text.count ')') (h : Nested next last rows) :
    Nested first last ((List.replicate (4 * level) ' ' ++ text) :: rows) := by
  have hspaces (c : Char) (hc : c ≠ ' ') : (List.replicate (4 * level) ' ').count c = 0 :=
    List.count_eq_zero_of_not_mem fun hmem => hc (List.eq_of_mem_replicate hmem)
  refine ⟨?_, next, ?_, h⟩
  · rw [leadingSpaces_replicate_append _ hhead, closesFirst_replicate_append _ hhead, hfirst]
    omega
  · rw [List.count_append, List.count_append, hspaces '(' (by decide), hspaces ')' (by decide)]
    omega

theorem nested_atom {name : List Char} {mark : Char} (hname : IsAtom name) (hspace : mark ≠ ' ')
    (hclose : mark ≠ ')') (h : Nested (level + [mark].count '(') last rows) :
    Nested level last ((List.replicate (4 * level) ' ' ++ (name ++ [mark])) :: rows) := by
  have hnot {c : Char} (hc : isAtomChar c = false) (hmark : mark ≠ c) : c ∉ name ++ [mark] := by
    simp [hname.notMem hc, hmark.symm]
  have hhead {c : Char} (hc : isAtomChar c = false) (hmark : mark ≠ c) :
      (name ++ [mark]).head? ≠ some c :=
    fun h => hnot hc hmark (List.mem_of_mem_head? h)
  refine nested_cons (hhead (by decide) hspace) ?_ ?_ h
  · rw [if_neg (hhead (by decide) hclose), Nat.add_zero]
  · rw [List.count_append, List.count_eq_zero_of_not_mem (hname.notMem (by decide)),
      List.count_eq_zero_of_not_mem (hnot (by decide) hclose), Nat.zero_add, Nat.add_zero]

-- The three kinds of rows: a name with its parenthesis, a field, and the end of a field.
theorem nested_opening {name : List Char} (hname : IsAtom name)
    (h : Nested (level + 1) last rows) :
    Nested level last ((List.replicate (4 * level) ' ' ++ (name ++ ['('])) :: rows) :=
  nested_atom hname (by decide) (by decide) h

theorem nested_field {name : List Char} (hname : IsAtom name) (h : Nested level last rows) :
    Nested level last ((List.replicate (4 * level) ' ' ++ (name ++ [','])) :: rows) :=
  nested_atom hname (by decide) (by decide) h

theorem nested_closing {tail : List Char} (htail : tail = [] ∨ tail = [','])
    (h : Nested level last rows) :
    Nested (level + 1) last ((List.replicate (4 * level) ' ' ++ ')' :: tail) :: rows) := by
  apply nested_cons (by simp) (by simp) _ h
  rcases htail with rfl | rfl <;> rfl

namespace Expr

-- The rows of a tree leave as many parentheses open as they find.
theorem nested_outlineLines (e : Expr) {tail : String}
    (htail : tail.toList = [] ∨ tail.toList = [',']) (h : Nested level last rows) :
    Nested level last ((e.outlineLines level tail).map outlineRow ++ rows) := by
  have hfield : ",".toList = [] ∨ ",".toList = [','] := .inr (by decide)
  induction e generalizing level tail rows with
  | leaf value =>
    have hname : IsAtom ['L', 'e', 'a', 'f'] := .of_all rfl
    simp only [outlineLines, outlineRow, List.map_cons, List.map_nil, List.cons_append,
      List.nil_append, String.toList_append, toList_marks, value.toList_text]
    exact nested_opening hname (nested_opening value.isAtom_kind
      (nested_field value.isAtom_numeral (nested_closing (.inr rfl) (nested_closing htail h))))
  | unary operator child ih =>
    have hname : IsAtom ['U', 'n', 'a', 'r', 'y'] := .of_all rfl
    simp only [outlineLines, outlineRow, List.map_cons, List.map_append, List.map_nil,
      List.cons_append, List.append_assoc, List.nil_append, String.toList_append, toList_marks]
    exact nested_opening hname (nested_field operator.isAtom_name
      (ih hfield (nested_closing htail h)))
  | binary operator left right ihl ihr =>
    have hname : IsAtom ['B', 'i', 'n', 'a', 'r', 'y'] := .of_all rfl
    simp only [outlineLines, outlineRow, List.map_cons, List.map_append, List.map_nil,
      List.cons_append, List.append_assoc, List.nil_append, String.toList_append, toList_marks]
    exact nested_opening hname (nested_field operator.isAtom_name
      (ihl hfield (ihr hfield (nested_closing htail h))))

theorem newline_notMem_of_mem_outlineRows {e : Expr} {row : List Char} (h : row ∈ e.outlineRows) :
    '\n' ∉ row := by
  obtain ⟨line, hline, rfl⟩ := List.mem_map.mp h
  rw [outlineRow, List.mem_append, not_or]
  constructor
  · exact fun hmem => absurd (List.eq_of_mem_replicate hmem) (by decide)
  · exact fun hmem => absurd (isVisible_of_mem_outlineLines hline hmem) (by decide)

theorem splitOn_outlinePretty (e : Expr) : e.outlinePretty.toList.splitOn '\n' = e.outlineRows := by
  have hne : e.outlineRows ≠ [] := by cases e <;> simp [outlineRows, outlineLines]
  rw [toList_outlinePretty]
  exact List.splitOn_intercalate '\n' (fun row => newline_notMem_of_mem_outlineRows) hne

-- Both outlines say the same. Without their blanks they differ in the commas behind last fields,
-- all of which stand before a closing parenthesis. In the outline with one field to a line, a row
-- stands four spaces further in for every parenthesis that is open where it begins, not counting the
-- one that it closes first.
theorem outlinePretty_packs_and_indents :
    (∀ e : Expr, withoutLastCommas (e.outlinePretty.toList.filter fun c => c != ' ' && c != '\n') =
      e.outline.toList.filter (· != ' ')) ∧
    ∀ (e : Expr) (before : List (List Char)) (row : List Char) (behind : List (List Char)),
      e.outlinePretty.toList.splitOn '\n' = before ++ row :: behind →
        leadingSpaces row + 4 * (before.flatten.count ')' + closesFirst row) =
          4 * before.flatten.count '(' := by
  constructor
  · exact fun e => e.withoutLastCommas_filter_outlinePretty.trans e.filter_outline.symm
  · intro e before row behind hsplit
    have hnested : Nested 0 0 (e.outlineRows ++ []) :=
      e.nested_outlineLines (.inl String.toList_empty) rfl
    rw [List.append_nil, ← splitOn_outlinePretty, hsplit] at hnested
    simpa using hnested.leadingSpaces_eq

-- The row that ends the field of an integer below a negation.
theorem outlinePretty_indents_negation :
    let e := unary .negate (leaf (.int (-3)))
    let before := ["Unary(".toList, "    Negate,".toList, "    Leaf(".toList, "        Int(".toList,
      "            -3,".toList]
    e.outlinePretty.toList.splitOn '\n' =
        before ++ "        ),".toList :: ["    ),".toList, ")".toList] ∧
      leadingSpaces "        ),".toList + 4 * (0 + 1) = 4 * 3 := by
  intro e before
  have hsplit : e.outlinePretty.toList.splitOn '\n' =
      before ++ "        ),".toList :: ["    ),".toList, ")".toList] := by decide +kernel
  exact ⟨hsplit, outlinePretty_packs_and_indents.2 e before _ _ hsplit⟩

end Expr

end ArithTree
