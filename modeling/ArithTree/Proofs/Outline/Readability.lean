import ArithTree.Proofs.Outline.Packed
import ArithTree.Proofs.Printer.Equality

namespace ArithTree

namespace IsAtom

variable {cs cs' rest rest' : List Char} {mark : Char}

-- An atom ends at the first character that cannot belong to one.
theorem takeWhile_append (h : IsAtom cs) (hmark : isAtomChar mark = false) (rest : List Char) :
    (cs ++ mark :: rest).takeWhile isAtomChar = cs := by
  rw [List.takeWhile_append_of_pos h, List.takeWhile_cons_of_neg (by simp [hmark]),
    List.append_nil]

theorem append_cons_inj (h : IsAtom cs) (h' : IsAtom cs') (hmark : isAtomChar mark = false)
    (heq : cs ++ mark :: rest = cs' ++ mark :: rest') : cs = cs' ∧ rest = rest' := by
  have hcs := congrArg (List.takeWhile isAtomChar) heq
  rw [h.takeWhile_append hmark, h'.takeWhile_append hmark] at hcs
  subst hcs
  exact ⟨rfl, (List.cons.inj (List.append_cancel_left heq)).2⟩

end IsAtom

theorem BinaryOperator.name_inj {op op' : BinaryOperator}
    (h : op.name.toList = op'.name.toList) : op = op' := by
  revert h
  cases op <;> cases op' <;> decide

theorem Value.kind_canonical (v : Value) : v.canonical.kind = v.kind := by cases v <;> rfl

theorem Value.canonical_eq_of_numeral_eq {v w : Value} (h : v.numeral = w.numeral) :
    v.canonical = w.canonical :=
  text_eq_iff.mp (congrArg String.ofList h)

namespace Expr

-- The same tree, but for the signs and payloads of NaNs.
inductive SameButNaNs : Expr → Expr → Prop
  | leaf (value : Value) : SameButNaNs (leaf value) (leaf value)
  | nan {x y : Binary64} (hx : x.isNaN) (hy : y.isNaN) :
      SameButNaNs (.leaf (.real x)) (.leaf (.real y))
  | unary (operator : UnaryOperator) {child child' : Expr} (h : SameButNaNs child child') :
      SameButNaNs (unary operator child) (unary operator child')
  | binary (operator : BinaryOperator) {left left' right right' : Expr}
      (hleft : SameButNaNs left left') (hright : SameButNaNs right right') :
      SameButNaNs (binary operator left right) (binary operator left' right')

variable {a b : Expr}

theorem canonical_eq_iff : a.canonical = b.canonical ↔ SameButNaNs a b := by
  constructor
  · intro h
    induction a generalizing b with
    | leaf v =>
      cases b with
      | leaf w =>
        rcases Value.canonical_eq_iff.mp (leaf.inj h) with ⟨n, rfl, rfl⟩ | ⟨x, rfl, rfl⟩ |
          ⟨x, y, rfl, rfl, hx, hy⟩
        · exact .leaf _
        · exact .leaf _
        · exact .nan hx hy
      | unary => cases h
      | binary => cases h
    | unary op child ih =>
      cases b with
      | leaf => cases h
      | unary op' child' =>
        obtain ⟨rfl, hchild⟩ := unary.inj h
        exact .unary op (ih hchild)
      | binary => cases h
    | binary op left right ihl ihr =>
      cases b with
      | leaf => cases h
      | unary => cases h
      | binary op' left' right' =>
        obtain ⟨rfl, hleft, hright⟩ := binary.inj h
        exact .binary op (ihl hleft) (ihr hright)
  · intro h
    induction h with
    | leaf => rfl
    | nan hx hy =>
      exact congrArg leaf (Value.canonical_eq_iff.mpr (.inr (.inr ⟨_, _, rfl, rfl, hx, hy⟩)))
    | unary op _ ih => rw [canonical, canonical, ih]
    | binary op _ _ ihl ihr => rw [canonical, canonical, ihl, ihr]

theorem outline_canonical (e : Expr) : e.canonical.outline = e.outline := by
  induction e with
  | leaf value =>
    simp only [canonical, outline, value.kind_canonical, Value.text, value.numeral_canonical]
  | unary op child ih => simp only [canonical, outline, ih]
  | binary op left right ihl ihr => simp only [canonical, outline, ihl, ihr]

theorem outlineLines_canonical (e : Expr) (level : ℕ) (tail : String) :
    e.canonical.outlineLines level tail = e.outlineLines level tail := by
  induction e generalizing level tail with
  | leaf value =>
    simp only [canonical, outlineLines, value.kind_canonical, Value.text, value.numeral_canonical]
  | unary op child ih => simp only [canonical, outlineLines, ih]
  | binary op left right ihl ihr => simp only [canonical, outlineLines, ihl, ihr]

-- An outline ends where its tree does, whatever follows.
theorem packed_append_inj {rest rest' : List Char}
    (h : a.packed [] ++ rest = b.packed [] ++ rest') :
    a.canonical = b.canonical ∧ rest = rest' := by
  have hopen : isAtomChar '(' = false := by decide
  have hclose : isAtomChar ')' = false := by decide
  have hcomma : isAtomChar ',' = false := by decide
  induction a generalizing b rest rest' with
  | leaf v =>
    cases b with
    | leaf w =>
      simp only [packed, List.append_assoc, List.cons_append, List.nil_append, List.cons.injEq,
        true_and] at h
      obtain ⟨-, hvalue⟩ := v.isAtom_kind.append_cons_inj w.isAtom_kind hopen h
      obtain ⟨hnumeral, hend⟩ := v.isAtom_numeral.append_cons_inj w.isAtom_numeral hclose hvalue
      exact ⟨congrArg leaf (Value.canonical_eq_of_numeral_eq hnumeral), (List.cons.inj hend).2⟩
    | unary => simp [packed] at h
    | binary => simp [packed] at h
  | unary op child ih =>
    cases b with
    | leaf => simp [packed] at h
    | unary op' child' =>
      simp only [packed, List.append_assoc, List.cons_append, List.nil_append, List.cons.injEq,
        true_and] at h
      obtain ⟨-, hfield⟩ := op.isAtom_name.append_cons_inj op'.isAtom_name hcomma h
      obtain ⟨hchild, hend⟩ := ih hfield
      have hop : op = op' := by cases op; cases op'; rfl
      exact ⟨by rw [canonical, canonical, hop, hchild], (List.cons.inj hend).2⟩
    | binary => simp [packed] at h
  | binary op left right ihl ihr =>
    cases b with
    | leaf => simp [packed] at h
    | unary => simp [packed] at h
    | binary op' left' right' =>
      simp only [packed, List.append_assoc, List.cons_append, List.nil_append, List.cons.injEq,
        true_and] at h
      obtain ⟨hname, hfields⟩ := op.isAtom_name.append_cons_inj op'.isAtom_name hcomma h
      obtain ⟨hleft, hsecond⟩ := ihl hfields
      obtain ⟨hright, hend⟩ := ihr (List.cons.inj hsecond).2
      exact ⟨by rw [canonical, canonical, BinaryOperator.name_inj hname, hleft, hright],
        (List.cons.inj hend).2⟩

theorem canonical_eq_of_packed_eq (h : a.packed [] = b.packed []) : a.canonical = b.canonical :=
  (packed_append_inj (congrArg (· ++ []) h)).1

theorem outline_eq_iff : a.outline = b.outline ↔ SameButNaNs a b := by
  rw [← canonical_eq_iff]
  constructor
  · intro h
    apply canonical_eq_of_packed_eq
    rw [← filter_outline, ← filter_outline, h]
  · intro h
    rw [← a.outline_canonical, h, b.outline_canonical]

theorem outlinePretty_eq_iff : a.outlinePretty = b.outlinePretty ↔ SameButNaNs a b := by
  rw [← canonical_eq_iff]
  constructor
  · intro h
    apply canonical_eq_of_packed_eq
    rw [← withoutLastCommas_filter_outlinePretty, ← withoutLastCommas_filter_outlinePretty, h]
  · intro h
    rw [outlinePretty, ← a.outlineLines_canonical, h, b.outlineLines_canonical, outlinePretty]

theorem text_eq_iff (ha : a.Displays) (hb : b.Displays) : a.text = b.text ↔ SameButNaNs a b := by
  rw [text_eq_of_fits (displays_iff_fits.mp ha), text_eq_of_fits (displays_iff_fits.mp hb),
    String.ofList_inj, render_eq_iff, canonical_eq_iff]

-- Each outline tells all trees apart that differ in more than the signs and payloads of NaNs, zeros
-- of different signs among them. The text of a tree tells the same trees apart, if there is one.
theorem outline_eq_iff_sameButNaNs_and_iff_text_eq :
    (∀ a b : Expr, a.outline = b.outline ↔ SameButNaNs a b) ∧
    (∀ a b : Expr, a.outlinePretty = b.outlinePretty ↔ SameButNaNs a b) ∧
    ∀ a b : Expr, a.Displays → b.Displays →
      ((a.outline = b.outline ↔ a.text = b.text) ∧
        (a.outlinePretty = b.outlinePretty ↔ a.text = b.text)) := by
  refine ⟨fun a b => outline_eq_iff, fun a b => outlinePretty_eq_iff, fun a b ha hb => ?_⟩
  rw [outline_eq_iff, outlinePretty_eq_iff, text_eq_iff ha hb]
  exact ⟨Iff.rfl, Iff.rfl⟩

-- Products of a negation and a zero. The NaNs below the negations differ in sign and payload, and
-- one more tree has the other zero.
theorem outline_eq_iff_text_eq_product :
    let product (x y : Binary64) :=
      binary .multiply (unary .negate (leaf (.real x))) (leaf (.real y))
    let a := product ⟨0xfff0000000000001⟩ ⟨0⟩
    let b := product ⟨0x7ff8000000000000⟩ ⟨0⟩
    let c := product ⟨0x7ff8000000000000⟩ ⟨0x8000000000000000⟩
    a.Displays ∧ b.Displays ∧ c.Displays ∧ a ≠ b ∧
      a.outline = b.outline ∧ a.text = b.text ∧ b.outline ≠ c.outline ∧ b.text ≠ c.text := by
  intro product a b c
  have ha : a.Displays := rfl
  have hb : b.Displays := rfl
  have hc : c.Displays := rfl
  obtain ⟨hsame, -, htext⟩ := outline_eq_iff_sameButNaNs_and_iff_text_eq
  have hab : a.outline = b.outline :=
    (hsame a b).mpr (.binary _ (.unary _ (.nan (by decide) (by decide))) (.leaf _))
  have hbc : b.text ≠ c.text := by decide
  exact ⟨ha, hb, hc, by decide, hab, (htext a b ha hb).1.mp hab,
    fun h => hbc ((htext b c hb hc).1.mp h), hbc⟩

end Expr

end ArithTree
