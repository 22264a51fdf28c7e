import ArithTree.Decimal.Reader
import ArithTree.Expr.Basic

namespace ArithTree

-- Reads the text of a value. Digits alone are an integer, which must fit into 64 bits.
def Value.read? (cs : List Char) : Option Value :=
  match Decimal.readInt? cs with
  | some n =>
    if Int64.minValue.toInt ≤ n ∧ n ≤ Int64.maxValue.toInt then some (int (Int64.ofInt n))
    else none
  | none => (Binary64.read? cs).map real

namespace Expr

-- A word runs up to the next space or line end.
def isWordChar (c : Char) : Bool := c != ' ' && c != '\n'

-- The next word behind any spaces, and what follows it.
def nextWord (cs : List Char) : List Char × List Char :=
  let cs := cs.dropWhile (· == ' ')
  (cs.takeWhile isWordChar, cs.dropWhile isWordChar)

theorem length_nextWord_lt {cs : List Char} (h : (nextWord cs).1 ≠ []) :
    (nextWord cs).2.length < cs.length := by
  have hspaces : (cs.dropWhile (· == ' ')).length ≤ cs.length :=
    (List.dropWhile_sublist _).length_le
  have hsplit := congrArg List.length
    (List.takeWhile_append_dropWhile (p := isWordChar) (l := cs.dropWhile (· == ' ')))
  have hword := List.length_pos_iff.mpr h
  simp only [nextWord, List.length_append] at hsplit hword ⊢
  omega

theorem length_lt_of_nextWord_eq_cons {cs below : List Char} {c : Char}
    (hnext : (nextWord cs).2.length < cs.length) (hline : (nextWord cs).2 = c :: below) :
    below.length < cs.length := by
  rw [hline, List.length_cons] at hnext
  exact Nat.lt_of_succ_lt hnext

-- Reads one tree from the front of a text and leaves what follows it. The layout plays no
-- part: a word says by itself how many trees follow it, and any number of spaces may come
-- before it. The line end behind a leaf or a binary operator belongs to the tree.
def readFrom? (cs : List Char) :
    Option { result : Expr × List Char // result.2.length < cs.length } :=
  if hword : (nextWord cs).1 = [] then none
  else
    have hnext := length_nextWord_lt hword
    if (nextWord cs).1 = UnaryOperator.negate.tag.toList then
      match readFrom? (nextWord cs).2 with
      | some ⟨(child, rest), hrest⟩ =>
        some ⟨(unary .negate child, rest), Nat.lt_trans hrest hnext⟩
      | none => none
    else
      match hline : (nextWord cs).2 with
      | '\n' :: below =>
        have hbelow := length_lt_of_nextWord_eq_cons hnext hline
        match BinaryOperator.all.find? (fun op => op.tag.toList = (nextWord cs).1) with
        | some op =>
          match readFrom? below with
          | some ⟨(left, rest), hleft⟩ =>
            have hleft' : rest.length < cs.length := Nat.lt_trans hleft hbelow
            match readFrom? rest with
            | some ⟨(right, rest'), hright⟩ =>
              some ⟨(binary op left right, rest'), Nat.lt_trans hright hleft'⟩
            | none => none
          | none => none
        | none => (Value.read? (nextWord cs).1).map fun value => ⟨(leaf value, below), hbelow⟩
      | _ => none
termination_by cs.length

def read? (cs : List Char) : Option (Expr × List Char) := (readFrom? cs).map (·.val)

end Expr

end ArithTree
