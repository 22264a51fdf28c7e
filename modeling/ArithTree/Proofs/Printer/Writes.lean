import ArithTree.Expr.Printer
import Mathlib.Data.Nat.Notation

namespace ArithTree

namespace Sink

theorem write_nil (s : Sink) : s.write "" = (.ok (), s) := by
  rcases s with ⟨text, _ | ⟨room, error⟩⟩ <;> simp [write]

theorem write_of_le {text piece : String} {room : ℕ} (error : WriteError)
    (h : piece.length ≤ room) :
    write ⟨text, .limited room error⟩ piece =
      (.ok (), ⟨text ++ piece, .limited (room - piece.length) error⟩) := if_pos h

theorem write_of_lt {text piece : String} {room : ℕ} (error : WriteError)
    (h : room < piece.length) :
    write ⟨text, .limited room error⟩ piece =
      (.error error, ⟨text ++ String.ofList (piece.toList.take room), .limited 0 error⟩) :=
  if_neg (Nat.not_le.mpr h)

-- A piece may be written in two parts. If the first part does not fit, nothing of the second
-- is written.
theorem write_append (s : Sink) (p q : String) :
    s.write (p ++ q) =
      match s.write p with
      | (.ok (), s) => s.write q
      | (.error error, s) => (.error error, s) := by
  have hlength : (p ++ q).length = p.length + q.length := String.length_append p q
  rcases s with ⟨text, _ | ⟨room, error⟩⟩
  · simp [write, String.append_assoc]
  · by_cases hp : p.length ≤ room
    · rw [write_of_le error hp]
      by_cases hq : q.length ≤ room - p.length
      · rw [write_of_le error (by omega), hlength, Nat.sub_add_eq, ← String.append_assoc]
        exact (write_of_le error hq).symm
      · have htake : (p ++ q).toList.take room = p.toList ++ q.toList.take (room - p.length) := by
          rw [String.toList_append, List.take_append, String.length_toList,
            List.take_of_length_le (by rwa [String.length_toList])]
        rw [write_of_lt error (by omega), htake, String.ofList_append, String.ofList_toList,
          ← String.append_assoc]
        exact (write_of_lt error (by omega)).symm
    · have htake : (p ++ q).toList.take room = p.toList.take room := by
        rw [String.toList_append, List.take_append_of_le_length]
        rw [String.length_toList]
        omega
      rw [write_of_lt error (by omega), write_of_lt error (by omega), htake]

end Sink

namespace Printing

variable {α β : Type}

-- On every sink, an action writes one text as far as it fits, and its outcome shows if all
-- of it does.
def Writes (action : Printing α) (out : List Char) (outcome : Except PrintFault α) : Prop :=
  ∀ sink, action.runOn sink =
    match sink.write (String.ofList out) with
    | (.ok (), sink) => (outcome, sink)
    | (.error error, sink) => (.error (.write error), sink)

theorem writes_pure (a : α) : Writes (pure a) [] (.ok a) := by
  intro sink
  simp [Sink.write_nil]

theorem writes_throw (fault : PrintFault) :
    Writes (throw fault : Printing α) [] (.error fault) := by
  intro sink
  simp [Sink.write_nil]

theorem writes_emit (piece : String) : Writes (emit piece) piece.toList (.ok ()) := by
  intro sink
  rw [String.ofList_toList]
  rfl

theorem writes_bind {action : Printing α} {next : α → Printing β} {a : α} {out out' : List Char}
    {outcome : Except PrintFault β} (h : Writes action out (.ok a))
    (h' : Writes (next a) out' outcome) : Writes (action >>= next) (out ++ out') outcome := by
  intro sink
  rw [runOn_bind, h sink, String.ofList_append, Sink.write_append]
  rcases sink.write (String.ofList out) with ⟨_ | _, sink'⟩
  · rfl
  · exact h' sink'

-- Behind a fault nothing is written.
theorem writes_bind_fault {action : Printing α} {next : α → Printing β} {fault : PrintFault}
    {out : List Char} (h : Writes action out (.error fault)) :
    Writes (action >>= next) out (.error fault) := by
  intro sink
  rw [runOn_bind, h sink]
  rcases sink.write (String.ofList out) with ⟨_ | _, sink'⟩ <;> rfl

theorem writes_emitPadded {spacing : ℕ} (h : spacing ≤ maxWidth) (piece : String) :
    Writes (emitPadded spacing piece) (List.replicate spacing ' ' ++ piece.toList) (.ok ()) := by
  have hwrites := writes_emit (String.ofList (List.replicate spacing ' ') ++ piece)
  rw [String.toList_append, String.toList_ofList] at hwrites
  rwa [emitPadded, if_pos h]

theorem writes_emitPadded_fault {spacing : ℕ} (h : ¬spacing ≤ maxWidth) (piece : String) :
    Writes (emitPadded spacing piece) [] (.error .widthTooLarge) := by
  rw [emitPadded, if_neg h]
  exact writes_throw _

theorem writes_deeper {indent : ℕ} (h : indent + 1 < indentLimit) :
    Writes (deeper indent) [] (.ok (indent + 1)) := by
  rw [deeper, if_pos h]
  exact writes_pure _

theorem writes_deeper_fault {indent : ℕ} (h : ¬indent + 1 < indentLimit) :
    Writes (deeper indent) [] (.error .indentOverflow) := by
  rw [deeper, if_neg h]
  exact writes_throw _

theorem Writes.runOn_unlimited {action : Printing α} {out : List Char}
    {outcome : Except PrintFault α} (h : Writes action out outcome) :
    action.runOn .unlimited = (outcome, ⟨String.ofList out, .unlimited⟩) := by
  rw [h]
  simp [Sink.unlimited, Sink.write]

theorem Writes.runOn_limited {action : Printing α} {out : List Char}
    {outcome : Except PrintFault α} (h : Writes action out outcome) (room : ℕ)
    (error : WriteError) :
    action.runOn (.limited room error) =
      if out.length ≤ room then (outcome, ⟨String.ofList out, .limited (room - out.length) error⟩)
      else (.error (.write error), ⟨String.ofList (out.take room), .limited 0 error⟩) := by
  have hlength : (String.ofList out).length = out.length := String.length_ofList
  rw [h, Sink.limited]
  by_cases hfits : out.length ≤ room
  · rw [Sink.write_of_le error (by omega), if_pos hfits, hlength, String.empty_append]
  · rw [Sink.write_of_lt error (by omega), if_neg hfits, String.toList_ofList,
      String.empty_append]

end Printing

namespace Expr

open Printing

-- The text of a tree, without regard to the limits on widths and indents.
def render : Expr → (indent : ℕ) → (newline : Bool) → List Char
  | leaf value, indent, newline =>
    List.replicate (if newline then indent else 1) ' ' ++ (value.numeral ++ ['\n'])
  | unary operator child, indent, newline =>
    List.replicate (if newline then indent else 1) ' ' ++
      (operator.tag.toList ++ child.render (indent + 1) false)
  | binary operator left right, indent, newline =>
    List.replicate (if newline then indent else 1) ' ' ++
      (operator.tag.toList ++ '\n' ::
        (left.render (indent + 1) true ++ right.render (indent + 1) true))

end Expr

end ArithTree
