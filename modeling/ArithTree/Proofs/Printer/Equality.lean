import ArithTree.Proofs.Generator.Program
import ArithTree.Proofs.NumEq
import ArithTree.Proofs.Printer.ReadBack
import ArithTree.Proofs.Value.Lossless

namespace ArithTree

-- No generated value is a NaN or has a sign that a comparison drops.
theorem Value.InRange.isNaN_eq_false {v : Value} (h : v.InRange) : v.isNaN = false := by
  cases v with
  | int => rfl
  | real x => exact x.isNaN_eq_false_of_isFinite h.2.1

theorem Value.InRange.unsignZero_eq {v : Value} (h : v.InRange) : v.unsignZero = v := by
  cases v with
  | int => rfl
  | real x =>
    have hne : x ≠ .zero true := by
      rintro rfl
      exact absurd h.1 (by decide)
    rw [unsignZero, Binary64.unsignZero, if_neg hne]

namespace Expr

open Printing

variable {a b t : Expr} {depth depth' : ℕ}

theorem InRange.naNFree (h : t.InRange depth) : t.NaNFree :=
  fun v hv => (h.leaf_inRange v hv).isNaN_eq_false

theorem InRange.unsignZeros_eq (h : t.InRange depth) : t.unsignZeros = t := by
  induction t generalizing depth with
  | leaf v => rw [unsignZeros, (inRange_leaf.mp h).unsignZero_eq]
  | unary op child ih => rw [unsignZeros, ih (inRange_unary.mp h).2]
  | binary op left right ihl ihr =>
    obtain ⟨-, hleft, hright⟩ := inRange_binary.mp h
    rw [unsignZeros, ihl hleft, ihr hright]

theorem numEq_iff_eq_of_inRange (ha : a.InRange depth) (hb : b.InRange depth') :
    a.numEq b ↔ a = b := by
  rw [numEq_iff, ha.unsignZeros_eq, hb.unsignZeros_eq]
  simp [ha.naNFree, hb.naNFree]

theorem NaNFree.canonical_eq (h : t.NaNFree) : t.canonical = t := by
  induction t with
  | leaf v => rw [canonical, Value.canonical_of_isNaN_eq_false (naNFree_leaf.mp h)]
  | unary op child ih => rw [canonical, ih h]
  | binary op left right ihl ihr =>
    obtain ⟨hleft, hright⟩ := naNFree_binary.mp h
    rw [canonical, ihl hleft, ihr hright]

theorem render_canonical (e : Expr) (indent : ℕ) (newline : Bool) :
    e.canonical.render indent newline = e.render indent newline := by
  induction e generalizing indent newline with
  | leaf value => simp only [canonical, render, value.numeral_canonical]
  | unary op child ih => simp only [canonical, render, ih]
  | binary op left right ihl ihr => simp only [canonical, render, ihl, ihr]

-- The text tells trees apart, as it reads back, but for their NaNs.
theorem render_eq_iff : a.render 0 true = b.render 0 true ↔ a.canonical = b.canonical := by
  constructor
  · intro h
    have hread := a.read?_render 0 true []
    rw [h, b.read?_render] at hread
    exact (Prod.mk.inj (Option.some.inj hread)).1.symm
  · intro h
    rw [← a.render_canonical, h, b.render_canonical]

theorem render_inj (ha : a.NaNFree) (hb : b.NaNFree) :
    a.render 0 true = b.render 0 true ↔ a = b := by
  rw [render_eq_iff, ha.canonical_eq, hb.canonical_eq]

theorem text_eq_of_fits (h : t.Fits 0 true) : t.text = String.ofList (t.render 0 true) := by
  rw [text, (writes_print_of_fits h).runOn_unlimited]

theorem text_printProgram_of_fits (h : t.Fits 0 true) :
    (t.printProgram.runOn .unlimited).2.text =
      String.ofList ((header ++ "\n").toList ++ t.render 0 true) := by
  rw [(writes_printProgram (writes_print_of_fits h)).runOn_unlimited]

-- Signs of zeros do not show in the layout.
theorem fits_unsignZeros {indent : ℕ} {newline : Bool} :
    t.unsignZeros.Fits indent newline ↔ t.Fits indent newline := by
  induction t generalizing indent newline with
  | leaf => exact Iff.rfl
  | unary op child ih => simp only [unsignZeros, Fits, ih]
  | binary op left right ihl ihr => simp only [unsignZeros, Fits, ihl, ihr]

-- A tree has a text if it can be printed from the left margin.
def Displays (e : Expr) : Prop := ((e.print 0 true).runOn .unlimited).1 = .ok ()

theorem displays_iff_fits : t.Displays ↔ t.Fits 0 true := runOn_print_eq_ok_iff

theorem unsignZeros_text_inj (ha : a.Fits 0 true) (hb : b.Fits 0 true) (hfree : a.NaNFree)
    (hfree' : b.NaNFree) :
    a.unsignZeros.text = b.unsignZeros.text ↔ a.unsignZeros = b.unsignZeros := by
  rw [text_eq_of_fits (fits_unsignZeros.mpr ha), text_eq_of_fits (fits_unsignZeros.mpr hb),
    String.ofList_inj,
    render_inj (naNFree_unsignZeros.mpr hfree) (naNFree_unsignZeros.mpr hfree')]

theorem printProgram_text_inj (ha : a.Fits 0 true) (hb : b.Fits 0 true) (hfree : a.NaNFree)
    (hfree' : b.NaNFree) :
    (a.printProgram.runOn .unlimited).2.text = (b.printProgram.runOn .unlimited).2.text ↔
      a = b := by
  rw [text_printProgram_of_fits ha, text_printProgram_of_fits hb, String.ofList_inj,
    List.append_cancel_left_eq, render_inj hfree hfree']

-- Numeric equality is equality of texts, but for the NaNs, which are unequal to everything, and
-- the signs of zeros. So it is an equivalence on the trees without a NaN. On generated trees
-- it is equality of programs. They all have a text unless they are too deep for its width.
theorem numEq_iff_text_eq :
    (∀ a b : Expr, a.Displays → b.Displays →
      (a.numEq b ↔ a.NaNFree ∧ b.NaNFree ∧ a.unsignZeros.text = b.unsignZeros.text)) ∧
    (∀ a : Expr, a.Displays → a.unsignZeros.Displays) ∧
    (∀ a b : Expr, a.numEq b → b.numEq a) ∧
    (∀ a b c : Expr, a.numEq b → b.numEq c → a.numEq c) ∧
    (∀ a : Expr, a.numEq a ↔ a.NaNFree) ∧
    (∀ (depth depth' : ℕ) (a b : Expr), Generated depth a → Generated depth' b →
      a.Displays → b.Displays →
      (a.numEq b ↔
        (a.printProgram.runOn .unlimited).2.text = (b.printProgram.runOn .unlimited).2.text)) ∧
    ∀ depth ≤ maxWidth, ∀ t : Expr, Generated depth t → t.Displays := by
  refine ⟨fun a b ha hb => ?_, fun a ha => ?_, fun a b => numEq_symm, fun a b c => numEq_trans,
    fun a => numEq_self_iff, fun depth depth' a b hgena hgenb ha hb => ?_,
    fun depth hdepth t ht => ?_⟩
  · have hfits := displays_iff_fits.mp ha
    have hfits' := displays_iff_fits.mp hb
    rw [numEq_iff]
    constructor
    · rintro ⟨hfree, hfree', heq⟩
      exact ⟨hfree, hfree', congrArg text heq⟩
    · rintro ⟨hfree, hfree', htext⟩
      exact ⟨hfree, hfree', (unsignZeros_text_inj hfits hfits' hfree hfree').mp htext⟩
  · exact displays_iff_fits.mpr (fits_unsignZeros.mpr (displays_iff_fits.mp ha))
  · have hrange := hgena.inRange
    have hrange' := hgenb.inRange
    rw [numEq_iff_eq_of_inRange hrange hrange', printProgram_text_inj (displays_iff_fits.mp ha)
      (displays_iff_fits.mp hb) hrange.naNFree hrange'.naNFree]
  · exact displays_iff_fits.mpr (ht.inRange.fits hdepth)

-- Two zeros of different signs: their texts differ, and they are equal all the same.
theorem numEq_sum_of_signed_zeros :
    let a := binary .add (leaf (.real ⟨0x8000000000000000⟩)) (leaf (.int 1))
    let b := binary .add (leaf (.real ⟨0⟩)) (leaf (.int 1))
    a.Displays ∧ b.Displays ∧ a.text ≠ b.text ∧ a.numEq b ∧
      (a.NaNFree ∧ b.NaNFree ∧ a.unsignZeros.text = b.unsignZeros.text) := by
  intro a b
  have ha : a.Displays := rfl
  have hb : b.Displays := rfl
  have heq : a.numEq b := by decide
  exact ⟨ha, hb, by decide, heq, (numEq_iff_text_eq.1 a b ha hb).mp heq⟩

end Expr

end ArithTree
