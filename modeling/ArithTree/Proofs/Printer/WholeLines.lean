import ArithTree.Proofs.Printer.Bytes
import ArithTree.Proofs.Printer.Lines

namespace ArithTree

-- The text of whole lines, each with its end behind it.
def ofLines (rows : List (List Char)) : List Char := rows.flatMap (· ++ ['\n'])

def leadingSpaces (row : List Char) : ℕ := (row.takeWhile (· == ' ')).length

theorem leadingSpaces_replicate_append (n : ℕ) {row : List Char} (h : row.head? ≠ some ' ') :
    leadingSpaces (List.replicate n ' ' ++ row) = n := by
  have hsplit : (List.replicate n ' ' ++ row).takeWhile (· == ' ') ++
      (List.replicate n ' ' ++ row).dropWhile (· == ' ') = List.replicate n ' ' ++ row :=
    List.takeWhile_append_dropWhile
  rw [dropWhile_replicate_append n h] at hsplit
  rw [leadingSpaces, List.append_cancel_right hsplit, List.length_replicate]

namespace Head

theorem isVisible_of_mem_text {head : Head} {c : Char} (h : c ∈ head.text) : isVisible c := by
  cases head with
  | operator op => exact op.isVisible_of_mem_tag h
  | value v => exact v.isVisible_of_mem_numeral h

theorem text_ne_nil (head : Head) : head.text ≠ [] := by
  cases head with
  | operator op => cases op <;> decide
  | value v => exact v.numeral_ne_nil

end Head

namespace Line

variable (line : Line)

-- The line behind its spaces, and the whole line, both without the end.
def words : List Char :=
  (List.replicate line.negations ['n', 'e', 'g', ' ']).flatten ++ line.head.text

def row : List Char := List.replicate line.spaces ' ' ++ line.words

theorem text_eq : line.text = line.row ++ ['\n'] := by simp [text, row, words]

theorem head?_words : line.words.head? ≠ some ' ' := by
  unfold words
  cases line.negations with
  | zero =>
    obtain ⟨c, rest, htext⟩ := List.exists_cons_of_ne_nil line.head.text_ne_nil
    have hvisible : isVisible c :=
      Head.isVisible_of_mem_text (htext ▸ List.mem_cons_self)
    rw [htext]
    intro h
    obtain rfl := Option.some.inj h
    exact absurd hvisible (by decide)
  | succ => simp [List.replicate_succ]

theorem leadingSpaces_row : leadingSpaces line.row = line.spaces :=
  leadingSpaces_replicate_append _ line.head?_words

theorem newline_notMem_row : '\n' ∉ line.row := by
  intro h
  simp only [row, words, List.mem_append, List.mem_flatten, List.mem_replicate] at h
  rcases h with ⟨-, h⟩ | ⟨word, ⟨-, rfl⟩, h⟩ | h
  · exact absurd h (by decide)
  · exact absurd h (by decide)
  · exact absurd (Head.isVisible_of_mem_text h) (by decide)

theorem row_shift (more : ℕ) : (line.shift more).row = List.replicate more ' ' ++ line.row := by
  rw [row, shift, Nat.add_comm, List.replicate_add, List.append_assoc]
  rfl

end Line

theorem ofLines_map_row (lines : List Line) :
    ofLines (lines.map Line.row) = lines.flatMap Line.text := by
  have htext : Line.text = fun line => line.row ++ ['\n'] := funext Line.text_eq
  rw [ofLines, List.flatMap_map, htext]

namespace Expr

variable {e : Expr} {indent : ℕ} {newline : Bool}

theorem runOn_print_of_fits (h : e.Fits indent newline) :
    (e.print indent newline).runOn .unlimited =
      (.ok (), ⟨String.ofList (ofLines
        ((e.lines (if newline then indent else 1) 0 indent).map Line.row)), .unlimited⟩) := by
  rw [(writes_print_of_fits h).runOn_unlimited, render_eq_flatMap_lines, ofLines_map_row]

end Expr

end ArithTree
