import ArithTree.Proofs.Generator.Range

namespace ArithTree

open Draw Script

namespace Value

def SameKind : Value → Value → Prop
  | int _, int _ => True
  | real _, real _ => True
  | _, _ => False

-- As many words give one plain fraction as give any other.
def plainRealEquiv {k k' : ℕ} (hplain : k = 0 ∨ 900719925475 ≤ k) (hlt : k < 2 ^ 53)
    (hplain' : k' = 0 ∨ 900719925475 ≤ k') (hlt' : k' < 2 ^ 53) :
    {word // plainReal? (Width.read .w64 word) = some (.ofUnitFraction k)} ≃
      {word // plainReal? (Width.read .w64 word) = some (.ofUnitFraction k')} :=
  have hsize {k : ℕ} (hlt : k < 2 ^ 53) : k * 2 ^ 11 + 2 ^ 11 ≤ Width.count .w64 := by
    change k * 2 ^ 11 + 2 ^ 11 ≤ 2 ^ 64
    omega
  (Equiv.subtypeEquivRight fun _ => plainReal?_eq_some_iff hplain hlt _).trans
    ((Width.shiftEquiv (hsize hlt) (hsize hlt')).trans
      (Equiv.subtypeEquivRight fun _ => (plainReal?_eq_some_iff hplain' hlt' _).symm))

theorem matched_runs {v v' : Value} (hkind : v.SameKind v') (hv : v.InRange) (hv' : v'.InRange) :
    Matched ((generate : Draw Script Value).runs v) ((generate : Draw Script Value).runs v') := by
  cases v with
  | int n =>
    cases v' with
    | real => cases hkind
    | int n' =>
      have hlt {n : Int64} (hn : (int n).InRange) : (n.toInt + 1000).toNat < 2001 := by
        obtain ⟨hlow, hhigh⟩ := hn
        omega
      have hint : Matched (generateInt.runs (int n)) (generateInt.runs (int n')) := by
        rw [runs_generateInt_int hv, runs_generateInt_int hv']
        exact matched_below (by decide) (hlt hv) (hlt hv')
      rw [runs_int, runs_int]
      exact hint.runsIn_mul (prefixCode_redraw _ _) _
  | real x =>
    cases v' with
    | int => cases hkind
    | real x' =>
      obtain ⟨k, hplain, hlt, rfl⟩ := Binary64.isPlainFraction_iff.mp hv
      obtain ⟨k', hplain', hlt', rfl⟩ := Binary64.isPlainFraction_iff.mp hv'
      have hreal : Matched (generateReal.runs (real (.ofUnitFraction k)))
          (generateReal.runs (real (.ofUnitFraction k'))) := by
        rw [runs_generateReal_real, runs_generateReal_real]
        exact matched_redraw (plainRealEquiv hplain hlt hplain' hlt')
      rw [runs_real, runs_real]
      exact hreal.runsIn_mul (prefixCode_redraw _ _) _

end Value

theorem BinaryOperator.matched_runs (op op' : BinaryOperator) :
    Matched ((generate : Draw Script BinaryOperator).runs op)
      ((generate : Draw Script BinaryOperator).runs op') := by
  rw [runs_generate, runs_generate]
  exact matched_below (by decide) op.index_lt op'.index_lt

namespace Expr

-- The same kinds of node in the same places, down to the kinds of the leaves.
def SameShape : Expr → Expr → Prop
  | leaf v, leaf v' => v.SameKind v'
  | unary _ child, unary _ child' => SameShape child child'
  | binary _ left right, binary _ left' right' => SameShape left left' ∧ SameShape right right'
  | _, _ => False

theorem matched_runs {t t' : Expr} {depth : ℕ} (hdepth : depth < 2 ^ 32)
    (hshape : SameShape t t') (h : t.InRange depth) (h' : t'.InRange depth) :
    Matched ((generate depth).runs t) ((generate depth).runs t') := by
  induction t generalizing t' depth with
  | leaf v =>
    cases t' with
    | leaf v' =>
      have hvalue := Value.matched_runs hshape (inRange_leaf.mp h) (inRange_leaf.mp h')
      rw [runs_leaf, runs_leaf]
      exact hvalue.runsIn_mul (prefixCode_below _ _) _
    | _ => cases hshape
  | unary op child ih =>
    cases t' with
    | unary op' child' =>
      obtain ⟨hle, hinRange⟩ := inRange_unary.mp h
      obtain ⟨-, hinRange'⟩ := inRange_unary.mp h'
      obtain ⟨depth, rfl⟩ := Nat.exists_eq_add_of_le' hle
      have hchild := ih (by omega) hshape hinRange hinRange'
      rw [runs_unary, runs_unary]
      exact hchild.runsIn_mul (prefixCode_below _ _) _
    | _ => cases hshape
  | binary op left right ihl ihr =>
    cases t' with
    | binary op' left' right' =>
      obtain ⟨hle, hinRangel, hinRanger⟩ := inRange_binary.mp h
      obtain ⟨-, hinRangel', hinRanger'⟩ := inRange_binary.mp h'
      obtain ⟨depth, rfl⟩ := Nat.exists_eq_add_of_le' (Nat.one_le_of_lt hle)
      have hleft := ihl (by omega) hshape.1 hinRangel hinRangel'
      have hright := ihr (by omega) hshape.2 hinRanger hinRanger'
      have hchildren := hleft.runs_mul (prefixCode_generate depth) hright
      have hnode := (op.matched_runs op').runs_mul BinaryOperator.prefixCode_generate hchildren
      rw [runs_binary, runs_binary]
      exact hnode.runsIn_mul (prefixCode_below _ _) _
    | _ => cases hshape

-- Trees of one shape are given by equally many scripts of every length, whatever their
-- operators and values are. Every script counts, with any number of redrawn words in it.
theorem encard_runs_eq_of_sameShape (depth : ℕ) (hdepth : depth < 2 ^ 32) {t t' : Expr}
    (hshape : SameShape t t')
    (ht : ∃ words : Script, (generate depth).runOn words = (some t, []))
    (ht' : ∃ words : Script, (generate depth).runOn words = (some t', [])) (n : ℕ) :
    {words : Script | words.length = n ∧ (generate depth).runOn words = (some t, [])}.encard =
      {words : Script | words.length = n ∧
        (generate depth).runOn words = (some t', [])}.encard := by
  obtain ⟨words, hwords⟩ := ht
  obtain ⟨words', hwords'⟩ := ht'
  exact (matched_runs hdepth hshape (inRange_of_mem_runs hwords)
    (inRange_of_mem_runs hwords')).encard_eq n

-- A sum of 1 and one half, and a product of -7 and zero.
theorem encard_runs_sum_eq_product :
    let t := binary .add (leaf (.int 1)) (leaf (.real ⟨0x3fe0000000000000⟩))
    let t' := binary .multiply (leaf (.int (-7))) (leaf (.real ⟨0⟩))
    SameShape t t' ∧
      (∃ words : Script, (generate 2).runOn words = (some t, [])) ∧
      (∃ words : Script, (generate 2).runOn words = (some t', [])) ∧
      {words : Script | words.length = 12 ∧ (generate 2).runOn words = (some t, [])}.encard =
        {words : Script | words.length = 12 ∧ (generate 2).runOn words = (some t', [])}.encard := by
  intro t t'
  have hdepth : 2 < 2 ^ 32 := by decide
  have hhalf : (⟨0x3fe0000000000000⟩ : Binary64) = .ofUnitFraction (2 ^ 52) := by decide
  have hzero : (⟨0⟩ : Binary64) = .ofUnitFraction 0 := by decide
  have hreal : (Value.real ⟨0x3fe0000000000000⟩).InRange := by
    rw [hhalf]
    exact Binary64.isPlainFraction_ofUnitFraction (by decide) (by decide)
  have hreal' : (Value.real ⟨0⟩).InRange := by
    rw [hzero]
    exact Binary64.isPlainFraction_ofUnitFraction (by decide) (by decide)
  have ht : ∃ words : Script, (generate 2).runOn words = (some t, []) :=
    exists_run_of_inRange hdepth (inRange_binary.mpr ⟨by decide,
      inRange_leaf.mpr ⟨by decide, by decide⟩, inRange_leaf.mpr hreal⟩)
  have ht' : ∃ words : Script, (generate 2).runOn words = (some t', []) :=
    exists_run_of_inRange hdepth (inRange_binary.mpr ⟨by decide,
      inRange_leaf.mpr ⟨by decide, by decide⟩, inRange_leaf.mpr hreal'⟩)
  have hshape : SameShape t t' := ⟨trivial, trivial⟩
  exact ⟨hshape, ht, ht', encard_runs_eq_of_sameShape 2 hdepth hshape ht ht' 12⟩

end Expr

end ArithTree
