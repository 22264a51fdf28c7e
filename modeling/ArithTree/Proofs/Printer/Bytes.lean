import ArithTree.Proofs.Printer.Fits
import ArithTree.Proofs.Value

namespace ArithTree

def bytes (text : String) : List UInt8 := text.toByteArray.data.toList

def isAscii (c : Char) : Bool := decide (c.toNat < 128)

-- An ASCII character that leaves a mark.
def isVisible (c : Char) : Bool := decide (33 ≤ c.toNat ∧ c.toNat < 127)

-- The spaces in front of a text end where it begins.
theorem dropWhile_replicate_append (n : ℕ) {text : List Char} (h : text.head? ≠ some ' ') :
    (List.replicate n ' ' ++ text).dropWhile (· == ' ') = text := by
  induction n with
  | zero =>
    cases text with
    | nil => rfl
    | cons c rest =>
      apply List.dropWhile_cons_of_neg
      simpa using h
  | succ n ih => rw [List.replicate_succ, List.cons_append, List.dropWhile_cons_of_pos rfl, ih]

theorem isAscii_of_isVisible {c : Char} (h : isVisible c) : isAscii c := by
  simp only [isVisible, isAscii, decide_eq_true_eq] at h ⊢
  omega

theorem utf8EncodeChar_of_isAscii {c : Char} (h : isAscii c) :
    String.utf8EncodeChar c = [c.toUInt8] := by
  have hsize : c.utf8Size = 1 := by
    rw [Char.utf8Size_eq_one_iff, UInt32.le_iff_toNat_le]
    simp only [isAscii, decide_eq_true_eq] at h
    exact Nat.le_of_lt_succ h
  rw [String.utf8EncodeChar_eq_singleton hsize]
  rfl

theorem bytes_ofList {cs : List Char} (h : ∀ c ∈ cs, isAscii c) :
    bytes (String.ofList cs) = cs.map Char.toUInt8 := by
  have hencode : cs.flatMap String.utf8EncodeChar = cs.map Char.toUInt8 := by
    induction cs with
    | nil => rfl
    | cons c cs ih =>
      rw [List.flatMap_cons, utf8EncodeChar_of_isAscii (h c (by simp)),
        ih fun c hc => h c (by simp [hc])]
      rfl
  rw [bytes, String.toByteArray_ofList, List.utf8Encode, List.toList_data_toByteArray, hencode]

theorem toUInt8_ofUInt8 (b : UInt8) : (Char.ofUInt8 b).toUInt8 = b :=
  UInt8.toUInt8_toUInt32 b

theorem ofUInt8_toUInt8 {c : Char} (h : isAscii c) : Char.ofUInt8 c.toUInt8 = c := by
  have hlt : c.val.toNat < 256 := by
    rw [isAscii, decide_eq_true_eq, Char.toNat] at h
    omega
  apply Char.ext
  apply UInt32.toNat_inj.mp
  change c.val.toUInt8.toUInt32.toNat = c.val.toNat
  rw [UInt8.toNat_toUInt32, UInt32.toNat_toUInt8]
  exact Nat.mod_eq_of_lt hlt

theorem isVisible_of_isDigit {c : Char} (h : c.isDigit) : isVisible c := by
  have hdigit : 48 ≤ c.toNat ∧ c.toNat ≤ 57 := by
    simpa [Char.isDigit, UInt32.le_iff_toNat_le] using h
  rw [isVisible, decide_eq_true_eq]
  omega

theorem Value.isVisible_of_mem_numeral {v : Value} {c : Char} (h : c ∈ v.numeral) :
    isVisible c := by
  have hchar := v.numeral_chars h
  rw [Binary64.isNumeralChar, Bool.or_eq_true] at hchar
  rcases hchar with hdigit | hmark
  · exact isVisible_of_isDigit hdigit
  · revert hmark
    simp only [List.contains_cons, List.contains_nil, Bool.or_false, Bool.or_eq_true, beq_iff_eq]
    rintro (rfl | rfl | rfl | rfl | rfl | rfl | rfl | rfl) <;> rfl

theorem UnaryOperator.isVisible_of_mem_tag {op : UnaryOperator} {c : Char}
    (h : c ∈ op.tag.toList) : isVisible c := by
  have hall : op.tag.toList.all isVisible := by cases op; decide
  exact List.all_eq_true.mp hall c h

theorem BinaryOperator.isVisible_of_mem_tag {op : BinaryOperator} {c : Char}
    (h : c ∈ op.tag.toList) : isVisible c := by
  have hall : op.tag.toList.all isVisible := by cases op <;> decide
  exact List.all_eq_true.mp hall c h

namespace Expr

theorem isAscii_of_mem_render {e : Expr} {indent : ℕ} {newline : Bool} {c : Char}
    (h : c ∈ e.render indent newline) : isAscii c := by
  induction e generalizing indent newline with
  | leaf value =>
    simp only [render, List.mem_append, List.mem_replicate, List.mem_singleton] at h
    rcases h with ⟨-, rfl⟩ | h | rfl
    · rfl
    · exact isAscii_of_isVisible (Value.isVisible_of_mem_numeral h)
    · rfl
  | unary operator child ih =>
    simp only [render, List.mem_append, List.mem_replicate] at h
    rcases h with ⟨-, rfl⟩ | h | h
    · rfl
    · exact isAscii_of_isVisible (UnaryOperator.isVisible_of_mem_tag h)
    · exact ih h
  | binary operator left right ihl ihr =>
    simp only [render, List.mem_append, List.mem_cons, List.mem_replicate] at h
    rcases h with ⟨-, rfl⟩ | h | rfl | h | h
    · rfl
    · exact isAscii_of_isVisible (BinaryOperator.isVisible_of_mem_tag h)
    · rfl
    · exact ihl h
    · exact ihr h

end Expr

end ArithTree
