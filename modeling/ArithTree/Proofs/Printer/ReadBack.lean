import ArithTree.Expr.Reader
import ArithTree.Proofs.Printer.Bytes

namespace ArithTree

theorem isWordChar_of_isVisible {c : Char} (h : isVisible c) : Expr.isWordChar c := by
  rw [Expr.isWordChar, Bool.and_eq_true, bne_iff_ne, bne_iff_ne]
  constructor <;> rintro rfl <;> exact absurd h (by decide)

theorem Value.numeral_ne_of_read?_eq_none {v : Value} {word : List Char}
    (h : read? word = none) : v.numeral ≠ word := by
  rintro rfl
  rw [v.read?_numeral] at h
  cases h

-- No tag is a numeral.
theorem UnaryOperator.read?_tag (op : UnaryOperator) : Value.read? op.tag.toList = none := by
  cases op
  rfl

theorem BinaryOperator.read?_tag (op : BinaryOperator) : Value.read? op.tag.toList = none := by
  cases op <;> rfl

theorem BinaryOperator.find?_tag (op : BinaryOperator) :
    all.find? (fun op' => op'.tag.toList = op.tag.toList) = some op := by
  cases op <;> rfl

theorem BinaryOperator.find?_numeral (v : Value) :
    all.find? (fun op => op.tag.toList = v.numeral) = none := by
  rw [List.find?_eq_none]
  intro op _ htag
  exact Value.numeral_ne_of_read?_eq_none op.read?_tag (of_decide_eq_true htag).symm

namespace Expr

-- The reader without the proofs that it gets on.
theorem read?_eq (cs : List Char) :
    read? cs =
      if (nextWord cs).1 = [] then none
      else if (nextWord cs).1 = UnaryOperator.negate.tag.toList then
        (read? (nextWord cs).2).map fun (child, rest) => (unary .negate child, rest)
      else
        match (nextWord cs).2 with
        | '\n' :: below =>
          match BinaryOperator.all.find? (fun op => op.tag.toList = (nextWord cs).1) with
          | some op =>
            (read? below).bind fun (left, rest) =>
              (read? rest).map fun (right, rest) => (binary op left right, rest)
          | none => (Value.read? (nextWord cs).1).map fun value => (leaf value, below)
        | _ => none := by
  rw [read?, readFrom?]
  by_cases hword : (nextWord cs).1 = []
  · rw [dif_pos hword, if_pos hword]
    rfl
  rw [dif_neg hword, if_neg hword]
  by_cases htag : (nextWord cs).1 = UnaryOperator.negate.tag.toList
  · rw [if_pos htag, if_pos htag, read?]
    cases readFrom? (nextWord cs).2 <;> rfl
  rw [if_neg htag, if_neg htag]
  split
  next below hline =>
    simp only [hline]
    cases BinaryOperator.all.find? (fun op => op.tag.toList = (nextWord cs).1) with
    | some op =>
      simp only [read?]
      rcases readFrom? below with _ | ⟨⟨left, rest⟩, hrest⟩
      · rfl
      · simp only [Option.map_some, Option.bind_some]
        cases readFrom? rest <;> rfl
    | none => cases Value.read? (nextWord cs).1 <;> rfl
  next hline =>
    split
    next below hbelow => exact absurd hbelow (hline below)
    next => rfl

-- The next word ends at the first character that is no part of a word.
theorem nextWord_eq (spacing : ℕ) {word : List Char} {c : Char} (rest : List Char)
    (hvisible : ∀ d ∈ word, isVisible d) (hword : word ≠ []) (hc : ¬isWordChar c) :
    nextWord (List.replicate spacing ' ' ++ (word ++ c :: rest)) = (word, c :: rest) := by
  have hwordChar : ∀ d ∈ word, isWordChar d := fun d hd => isWordChar_of_isVisible (hvisible d hd)
  have hhead : (word ++ c :: rest).head? ≠ some ' ' := by
    obtain ⟨first, others, rfl⟩ := List.exists_cons_of_ne_nil hword
    intro hspace
    obtain rfl := Option.some.inj hspace
    exact absurd (hvisible ' ' List.mem_cons_self) (by decide)
  rw [nextWord, dropWhile_replicate_append spacing hhead, List.takeWhile_append_of_pos hwordChar,
    List.dropWhile_append_of_pos hwordChar, List.takeWhile_cons_of_neg hc,
    List.dropWhile_cons_of_neg hc, List.append_nil]

-- The tree with a plain NaN in place of any other.
def canonical : Expr → Expr
  | leaf value => leaf value.canonical
  | unary operator child => unary operator child.canonical
  | binary operator left right => binary operator left.canonical right.canonical

-- A node that continues a line starts with a space, which ends the word before it.
theorem exists_render_eq_cons (e : Expr) (indent : ℕ) :
    ∃ tail, e.render indent false = ' ' :: tail := by
  cases e <;> exact ⟨_, rfl⟩

-- The text of a tree reads back with nothing of what follows it.
theorem read?_render (e : Expr) (indent : ℕ) (newline : Bool) (rest : List Char) :
    read? (e.render indent newline ++ rest) = some (e.canonical, rest) := by
  induction e generalizing indent newline rest with
  | leaf value =>
    have hnext := nextWord_eq (if newline then indent else 1) rest
      (fun _ => value.isVisible_of_mem_numeral) value.numeral_ne_nil
      (show ¬isWordChar '\n' by decide)
    have htag : value.numeral ≠ UnaryOperator.negate.tag.toList :=
      Value.numeral_ne_of_read?_eq_none UnaryOperator.negate.read?_tag
    have happend : (leaf value).render indent newline ++ rest =
        List.replicate (if newline then indent else 1) ' ' ++ (value.numeral ++ '\n' :: rest) := by
      simp [render]
    rw [happend, read?_eq, hnext, if_neg value.numeral_ne_nil, if_neg htag]
    simp only [BinaryOperator.find?_numeral, value.read?_numeral, Option.map_some, canonical]
  | unary operator child ih =>
    cases operator
    have hword : UnaryOperator.negate.tag.toList ≠ [] := by decide
    obtain ⟨tail, htail⟩ := child.exists_render_eq_cons (indent + 1)
    have hnext := nextWord_eq (if newline then indent else 1) (tail ++ rest)
      (fun _ => UnaryOperator.negate.isVisible_of_mem_tag) hword (show ¬isWordChar ' ' by decide)
    have happend : (unary .negate child).render indent newline ++ rest =
        List.replicate (if newline then indent else 1) ' ' ++
          (UnaryOperator.negate.tag.toList ++ ' ' :: (tail ++ rest)) := by
      simp [render, htail]
    have hchild : read? (' ' :: (tail ++ rest)) = some (child.canonical, rest) := by
      rw [← List.cons_append, ← htail]
      exact ih (indent + 1) false rest
    rw [happend, read?_eq, hnext, if_neg hword, if_pos rfl, hchild]
    rfl
  | binary operator left right ihl ihr =>
    have hword : operator.tag.toList ≠ [] := by cases operator <;> decide
    have htag : operator.tag.toList ≠ UnaryOperator.negate.tag.toList := by
      cases operator <;> decide
    have hnext := nextWord_eq (if newline then indent else 1)
      (left.render (indent + 1) true ++ (right.render (indent + 1) true ++ rest))
      (fun _ => operator.isVisible_of_mem_tag) hword (show ¬isWordChar '\n' by decide)
    have happend : (binary operator left right).render indent newline ++ rest =
        List.replicate (if newline then indent else 1) ' ' ++ (operator.tag.toList ++
          '\n' :: (left.render (indent + 1) true ++ (right.render (indent + 1) true ++ rest))) := by
      simp [render]
    rw [happend, read?_eq, hnext, if_neg hword, if_neg htag]
    simp only [operator.find?_tag, ihl, ihr, Option.bind_some, Option.map_some, canonical]

-- Reads one tree from the front of a byte string, one character to a byte.
def readBytes? (input : List UInt8) : Option (Expr × List UInt8) :=
  (read? (input.map Char.ofUInt8)).map fun (e, rest) => (e, rest.map Char.toUInt8)

theorem readBytes?_bytes_append {out : List Char} {e : Expr} {rest : List UInt8}
    (hascii : ∀ c ∈ out, isAscii c)
    (hread : read? (out ++ rest.map Char.ofUInt8) = some (e, rest.map Char.ofUInt8)) :
    readBytes? (bytes (String.ofList out) ++ rest) = some (e, rest) := by
  have hout : (out.map Char.toUInt8).map Char.ofUInt8 = out := by
    rw [List.map_map]
    exact (List.map_congr_left fun c hc => ofUInt8_toUInt8 (hascii c hc)).trans (List.map_id out)
  have hrest : (rest.map Char.ofUInt8).map Char.toUInt8 = rest := by
    rw [List.map_map]
    exact List.map_id'' toUInt8_ofUInt8 rest
  rw [readBytes?, bytes_ofList hascii, List.map_append, hout, hread]
  exact congrArg (fun rest' => some (e, rest')) hrest

-- What is printed without a fault reads back by itself. The reader is told neither the indent
-- nor whether the first node starts a line, and bytes of any kind may come next.
theorem readBytes?_print (e : Expr) (indent : ℕ) (newline : Bool) (rest : List UInt8)
    (h : ((e.print indent newline).runOn .unlimited).1 = .ok ()) :
    readBytes? (bytes ((e.print indent newline).runOn .unlimited).2.text ++ rest) =
      some (e.canonical, rest) := by
  obtain ⟨out, outcome, hwrites, -, hall⟩ := e.exists_writes_print indent newline
  rw [hwrites.runOn_unlimited] at h ⊢
  have hout : out = e.render indent newline := hall h
  subst hout
  exact readBytes?_bytes_append (fun _ => isAscii_of_mem_render)
    (e.read?_render indent newline (rest.map Char.ofUInt8))

-- A difference whose first operand is the negation of a NaN with a sign and a payload, printed
-- two spaces deep, with bytes behind it that are not text.
theorem readBytes?_print_negated_nan :
    let e := binary .subtract (unary .negate (leaf (.real ⟨0xfff0000000000001⟩)))
      (leaf (.int (-3)))
    ((e.print 2 true).runOn .unlimited).1 = .ok () ∧
    ((e.print 2 true).runOn .unlimited).2.text = "  sub\n   neg NaN\n   -3\n" ∧
    readBytes? (bytes "  sub\n   neg NaN\n   -3\n" ++ [0xff, 0x0a]) =
      some (binary .subtract (unary .negate (leaf (.real .nan))) (leaf (.int (-3))),
        [0xff, 0x0a]) := by
  intro e
  have hok : ((e.print 2 true).runOn .unlimited).1 = .ok () := rfl
  have htext : ((e.print 2 true).runOn .unlimited).2.text =
      "  sub\n   neg NaN\n   -3\n" := by decide
  have hcanonical : e.canonical =
      binary .subtract (unary .negate (leaf (.real .nan))) (leaf (.int (-3))) := by decide
  refine ⟨hok, htext, ?_⟩
  rw [← htext, ← hcanonical]
  exact readBytes?_print e 2 true [0xff, 0x0a] hok

end Expr

end ArithTree
