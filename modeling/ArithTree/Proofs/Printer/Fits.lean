import ArithTree.Proofs.Printer.Writes
import Mathlib.Data.List.Infix

namespace ArithTree.Expr

open Printing

-- No node of a tree is too wide, and no indent of a child is too large.
def Fits : Expr → (indent : ℕ) → (newline : Bool) → Prop
  | leaf _, indent, newline => (if newline then indent else 1) ≤ maxWidth
  | unary _ child, indent, newline =>
    (if newline then indent else 1) ≤ maxWidth ∧ indent + 1 < indentLimit ∧
      child.Fits (indent + 1) false
  | binary _ left right, indent, newline =>
    (if newline then indent else 1) ≤ maxWidth ∧ indent + 1 < indentLimit ∧
      left.Fits (indent + 1) true ∧ right.Fits (indent + 1) true

variable {e : Expr} {indent : ℕ} {newline : Bool}

-- An inner node puts its piece in front of its children, which start from the next indent.
theorem writes_inner {spacing : ℕ} {piece : String} {children : ℕ → Printing Unit}
    {out : List Char} {outcome : Except PrintFault Unit} (hwidth : spacing ≤ maxWidth)
    (hindent : indent + 1 < indentLimit) (h : Writes (children (indent + 1)) out outcome) :
    Writes (do emitPadded spacing piece; children (← deeper indent))
      (List.replicate spacing ' ' ++ (piece.toList ++ out)) outcome := by
  have hwrites : Writes (do emitPadded spacing piece; children (← deeper indent)) _ _ :=
    writes_bind (writes_emitPadded hwidth piece) (writes_bind (writes_deeper hindent) h)
  rwa [List.nil_append, List.append_assoc] at hwrites

theorem writes_inner_tooWide {spacing : ℕ} (hwidth : ¬spacing ≤ maxWidth) (piece : String)
    (children : ℕ → Printing Unit) :
    Writes (do emitPadded spacing piece; children (← deeper indent)) [] (.error .widthTooLarge) :=
  writes_bind_fault (writes_emitPadded_fault hwidth piece)

-- The indent of the children is computed behind the node's own piece.
theorem writes_inner_overflow {spacing : ℕ} (hwidth : spacing ≤ maxWidth)
    (hindent : ¬indent + 1 < indentLimit) (piece : String) (children : ℕ → Printing Unit) :
    Writes (do emitPadded spacing piece; children (← deeper indent))
      (List.replicate spacing ' ' ++ piece.toList) (.error .indentOverflow) := by
  have hwrites : Writes (do emitPadded spacing piece; children (← deeper indent)) _ _ :=
    writes_bind (writes_emitPadded hwidth piece) (writes_bind_fault (writes_deeper_fault hindent))
  rwa [List.append_nil] at hwrites

theorem exists_writes_inner_fault {spacing : ℕ} (piece : String) (children : ℕ → Printing Unit)
    (h : ¬(spacing ≤ maxWidth ∧ indent + 1 < indentLimit)) :
    ∃ out fault, Writes (do emitPadded spacing piece; children (← deeper indent)) out
      (.error fault) ∧ ∀ more, out <+: List.replicate spacing ' ' ++ (piece.toList ++ more) := by
  by_cases hwidth : spacing ≤ maxWidth
  · have hindent : ¬indent + 1 < indentLimit := fun hindent => h ⟨hwidth, hindent⟩
    refine ⟨_, _, writes_inner_overflow hwidth hindent piece children, fun more => ?_⟩
    rw [← List.append_assoc]
    exact List.prefix_append _ _
  · exact ⟨_, _, writes_inner_tooWide hwidth piece children, fun _ => List.nil_prefix⟩

theorem writes_print_of_fits (h : e.Fits indent newline) :
    Writes (e.print indent newline) (e.render indent newline) (.ok ()) := by
  induction e generalizing indent newline with
  | leaf value =>
    have hwrites := writes_emitPadded h (value.text ++ "\n")
    rwa [String.toList_append, Value.toList_text] at hwrites
  | unary operator child ih =>
    obtain ⟨hwidth, hindent, hchild⟩ := h
    exact writes_inner hwidth hindent (ih hchild)
  | binary operator left right ihl ihr =>
    obtain ⟨hwidth, hindent, hleft, hright⟩ := h
    have hwrites : Writes ((binary operator left right).print indent newline) _ _ :=
      writes_inner hwidth hindent
        (writes_bind (ihl hleft) (writes_bind (writes_deeper hindent) (ihr hright)))
    rwa [String.toList_append, List.append_assoc] at hwrites

-- If some node does not fit, the text ends before it or inside it.
theorem exists_writes_print_fault (h : ¬e.Fits indent newline) :
    ∃ out fault, Writes (e.print indent newline) out (.error fault) ∧
      out <+: e.render indent newline := by
  induction e generalizing indent newline with
  | leaf value => exact ⟨_, _, writes_emitPadded_fault h _, List.nil_prefix⟩
  | unary operator child ih =>
    by_cases hnode : (if newline then indent else 1) ≤ maxWidth ∧ indent + 1 < indentLimit
    · obtain ⟨hwidth, hindent⟩ := hnode
      obtain ⟨out, fault, hchild, hout⟩ := ih fun hchild => h ⟨hwidth, hindent, hchild⟩
      refine ⟨_, fault, writes_inner hwidth hindent hchild, ?_⟩
      simpa [render] using hout
    · obtain ⟨out, fault, hfault, hout⟩ := exists_writes_inner_fault operator.tag
        (child.print · false) hnode
      exact ⟨out, fault, hfault, hout _⟩
  | binary operator left right ihl ihr =>
    by_cases hnode : (if newline then indent else 1) ≤ maxWidth ∧ indent + 1 < indentLimit
    · obtain ⟨hwidth, hindent⟩ := hnode
      -- the right child is reached if all of the left one fits
      by_cases hleft : left.Fits (indent + 1) true
      · obtain ⟨out, fault, hright, hout⟩ := ihr fun hright => h ⟨hwidth, hindent, hleft, hright⟩
        refine ⟨_, fault, writes_inner hwidth hindent (writes_bind (writes_print_of_fits hleft)
          (writes_bind (writes_deeper hindent) hright)), ?_⟩
        simpa [render] using hout
      · obtain ⟨out, fault, hfault, more, hmore⟩ := ihl hleft
        refine ⟨_, fault, writes_inner hwidth hindent (writes_bind_fault hfault), ?_⟩
        simp [render, ← hmore]
    · obtain ⟨out, fault, hfault, hout⟩ := exists_writes_inner_fault (operator.tag ++ "\n") _ hnode
      refine ⟨out, fault, hfault, ?_⟩
      simpa [render] using hout _

-- Printing a tree writes its text, or the part of it before the first fault.
theorem exists_writes_print (e : Expr) (indent : ℕ) (newline : Bool) :
    ∃ out outcome, Writes (e.print indent newline) out outcome ∧
      out <+: e.render indent newline ∧ (outcome = .ok () → out = e.render indent newline) := by
  by_cases h : e.Fits indent newline
  · exact ⟨_, _, writes_print_of_fits h, List.prefix_rfl, fun _ => rfl⟩
  · obtain ⟨out, fault, hwrites, hout⟩ := exists_writes_print_fault h
    exact ⟨out, _, hwrites, hout, nofun⟩

theorem runOn_print_eq_ok_iff :
    ((e.print indent newline).runOn .unlimited).1 = .ok () ↔ e.Fits indent newline := by
  constructor
  · intro hok
    by_contra h
    obtain ⟨out, fault, hwrites, -⟩ := exists_writes_print_fault h
    rw [hwrites.runOn_unlimited] at hok
    cases hok
  · intro h
    rw [(writes_print_of_fits h).runOn_unlimited]

theorem spacing_le_maxWidth (newline : Bool) (h : indent ≤ maxWidth) :
    (if newline then indent else 1) ≤ maxWidth := by
  split
  · exact h
  · decide

theorem succ_lt_indentLimit (h : indent < maxWidth) : indent + 1 < indentLimit := by
  rw [maxWidth] at h
  rw [indentLimit]
  omega

theorem Fits.width_le (h : e.Fits indent newline) : (if newline then indent else 1) ≤ maxWidth := by
  cases e with
  | leaf => exact h
  | unary => exact h.1
  | binary => exact h.1

-- What fits at an indent fits at any lower one, and there it may start a line or go on with one,
-- as long as its first node is not too wide.
theorem Fits.of_indent_le {indent' : ℕ} {newline' : Bool} (h : e.Fits indent newline)
    (hle : indent' ≤ indent) (hwidth : (if newline' then indent' else 1) ≤ maxWidth) :
    e.Fits indent' newline' := by
  induction e generalizing indent indent' newline newline' with
  | leaf => exact hwidth
  | unary operator child ih =>
    obtain ⟨-, hindent, hchild⟩ := h
    exact ⟨hwidth, by omega, ih hchild (Nat.succ_le_succ hle) (show 1 ≤ maxWidth by decide)⟩
  | binary operator left right ihl ihr =>
    obtain ⟨-, hindent, hleft, hright⟩ := h
    have hwidth' : indent' + 1 ≤ maxWidth := (Nat.succ_le_succ hle).trans hleft.width_le
    exact ⟨hwidth, by omega, ihl hleft (Nat.succ_le_succ hle) hwidth',
      ihr hright (Nat.succ_le_succ hle) hwidth'⟩

-- A tree fits wherever its deepest node could start a line.
theorem fits_of_le (newline : Bool) (h : indent + e.depth ≤ maxWidth) : e.Fits indent newline := by
  induction e generalizing indent newline with
  | leaf => exact spacing_le_maxWidth newline h
  | unary operator child ih =>
    rw [depth] at h
    exact ⟨spacing_le_maxWidth newline (by omega), succ_lt_indentLimit (by omega),
      ih false (by omega)⟩
  | binary operator left right ihl ihr =>
    rw [depth] at h
    exact ⟨spacing_le_maxWidth newline (by omega), succ_lt_indentLimit (by omega),
      ihl true (by omega), ihr true (by omega)⟩

end ArithTree.Expr
