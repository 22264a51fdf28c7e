import ArithTree.Proofs.Subtrees
import ArithTree.Proofs.Value

namespace ArithTree

namespace Binary64

def zero (negative : Bool) : Binary64 := ofRank negative 0

-- The number with the sign of a zero dropped.
def unsignZero (x : Binary64) : Binary64 := if x = zero true then zero false else x

variable {x y : Binary64}

theorem isZero_iff_eq : x.isZero ↔ x = zero false ∨ x = zero true := by
  rw [isZero_iff]
  constructor
  · intro hrank
    have hx := x.ofRank_rank
    rw [hrank] at hx
    cases hsign : x.isNegative with
    | false => exact .inl (by rw [← hx, hsign, zero])
    | true => exact .inr (by rw [← hx, hsign, zero])
  · rintro (rfl | rfl)
    · exact rank_ofRank (by decide)
    · exact rank_ofRank (by decide)

theorem unsignZero_eq_iff :
    x.unsignZero = y.unsignZero ↔ x = y ∨ x.isZero ∧ y.isZero := by
  have hne : zero false ≠ zero true := by decide
  rw [isZero_iff_eq, isZero_iff_eq, unsignZero, unsignZero]
  by_cases hx : x = zero true
  · by_cases hy : y = zero true
    · simp [hx, hy]
    · simp [hx, hy, eq_comm]
  · by_cases hy : y = zero true
    · simp [hx, hy]
    · simp only [hx, hy, if_false, or_false]
      constructor
      · exact .inl
      · rintro (h | ⟨rfl, rfl⟩)
        · exact h
        · rfl

-- Numeric equality is equality up to the sign of zero, among the numbers.
theorem numEq_iff :
    x.numEq y ↔ x.isNaN = false ∧ y.isNaN = false ∧ x.unsignZero = y.unsignZero := by
  rw [unsignZero_eq_iff, numEq]
  simp [and_assoc]

theorem isNaN_unsignZero (x : Binary64) : x.unsignZero.isNaN = x.isNaN := by
  rw [unsignZero]
  split
  next hx =>
    subst hx
    decide
  next => rfl

theorem canonical_of_isNaN_eq_false (h : x.isNaN = false) : x.canonical = x := by
  simp [canonical, h]

end Binary64

namespace Value

def isNaN : Value → Bool
  | int _ => false
  | real x => x.isNaN

def unsignZero : Value → Value
  | int n => int n
  | real x => real x.unsignZero

theorem numEq_iff {v w : Value} :
    v.numEq w ↔ v.isNaN = false ∧ w.isNaN = false ∧ v.unsignZero = w.unsignZero := by
  cases v <;> cases w <;> simp [numEq, isNaN, unsignZero, Binary64.numEq_iff]

theorem isNaN_unsignZero (v : Value) : v.unsignZero.isNaN = v.isNaN := by
  cases v with
  | int => rfl
  | real x => exact x.isNaN_unsignZero

theorem canonical_of_isNaN_eq_false {v : Value} (h : v.isNaN = false) : v.canonical = v := by
  cases v with
  | int => rfl
  | real x => exact congrArg real (Binary64.canonical_of_isNaN_eq_false h)

end Value

namespace Expr

def NaNFree (e : Expr) : Prop := ∀ v ∈ e.leaves, v.isNaN = false

-- The tree with 0.0 in place of every leaf that is -0.0.
def unsignZeros : Expr → Expr
  | leaf value => leaf value.unsignZero
  | unary operator child => unary operator child.unsignZeros
  | binary operator left right => binary operator left.unsignZeros right.unsignZeros

theorem naNFree_leaf {v : Value} : (leaf v).NaNFree ↔ v.isNaN = false := by
  simp [NaNFree, leaves]

theorem naNFree_binary {op : BinaryOperator} {left right : Expr} :
    (binary op left right).NaNFree ↔ left.NaNFree ∧ right.NaNFree := by
  simp only [NaNFree, leaves, List.mem_append]
  constructor
  · intro h
    exact ⟨fun v hv => h v (.inl hv), fun v hv => h v (.inr hv)⟩
  · rintro ⟨hleft, hright⟩ v (hv | hv)
    · exact hleft v hv
    · exact hright v hv

-- Two trees are numerically equal if no leaf is a NaN and they are the same tree up to the signs
-- of zeros.
theorem numEq_iff {a b : Expr} :
    a.numEq b ↔ a.NaNFree ∧ b.NaNFree ∧ a.unsignZeros = b.unsignZeros := by
  induction a generalizing b with
  | leaf v =>
    cases b with
    | leaf w => simp only [numEq, Value.numEq_iff, naNFree_leaf, unsignZeros, leaf.injEq]
    | unary => simp [numEq, unsignZeros]
    | binary => simp [numEq, unsignZeros]
  | unary op child ih =>
    cases b with
    | leaf => simp [numEq, unsignZeros]
    | unary op' child' =>
      have hfree (op : UnaryOperator) (e : Expr) : (unary op e).NaNFree ↔ e.NaNFree := Iff.rfl
      simp only [numEq, Bool.and_eq_true, beq_iff_eq, ih, hfree, unsignZeros, unary.injEq]
      tauto
    | binary => simp [numEq, unsignZeros]
  | binary op left right ihl ihr =>
    cases b with
    | leaf => simp [numEq, unsignZeros]
    | unary => simp [numEq, unsignZeros]
    | binary op' left' right' =>
      simp only [numEq, Bool.and_eq_true, beq_iff_eq, ihl, ihr, naNFree_binary, unsignZeros,
        binary.injEq]
      tauto

theorem numEq_self_iff {a : Expr} : a.numEq a ↔ a.NaNFree := by
  simp [numEq_iff]

theorem numEq_symm {a b : Expr} (h : a.numEq b) : b.numEq a := by
  obtain ⟨ha, hb, heq⟩ := numEq_iff.mp h
  exact numEq_iff.mpr ⟨hb, ha, heq.symm⟩

theorem numEq_trans {a b c : Expr} (h : a.numEq b) (h' : b.numEq c) : a.numEq c := by
  obtain ⟨ha, -, heq⟩ := numEq_iff.mp h
  obtain ⟨-, hc, heq'⟩ := numEq_iff.mp h'
  exact numEq_iff.mpr ⟨ha, hc, heq.trans heq'⟩

theorem leaves_unsignZeros (e : Expr) : e.unsignZeros.leaves = e.leaves.map Value.unsignZero := by
  induction e with
  | leaf => rfl
  | unary op child ih => exact ih
  | binary op left right ihl ihr => rw [unsignZeros, leaves, leaves, ihl, ihr, List.map_append]

theorem naNFree_unsignZeros {e : Expr} : e.unsignZeros.NaNFree ↔ e.NaNFree := by
  simp [NaNFree, leaves_unsignZeros, Value.isNaN_unsignZero]

end Expr

end ArithTree
