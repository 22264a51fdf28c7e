import ArithTree.Proofs.Generator.Nodes
import ArithTree.Proofs.Random.Uniform

namespace ArithTree

open Draw Width

theorem BinaryOperator.getElem?_all {i : ℕ} (hi : i < all.length) :
    all[i]? = some (ofIndex i) := by
  decide +revert

-- A word of 32 or 64 bits is kept if the low half of its product with the bound lies in the zone,
-- and the high half is the result. Below as many results as there are words, each of them has
-- the same number of words, none is outside the bound, and half of all words or more are kept.
-- With as many results as words, every word gives itself. So the numbers that decide on a node,
-- an operator and an integer leaf stay in their ranges, whatever the source is.
theorem uniform_reduce?_and_below_in_range :
    (∀ (w : Width) (n : ℕ), 1 ≤ n → n < w.count →
      (∀ v r, w.reduce? n v = some r ↔
        v * BitVec.ofNat w.bits n ≤ (BitVec.ofNat w.bits n <<< w.leadingZeros n) - 1 ∧
          v.toNat * n / w.count = r) ∧
      (∀ r < n, (w.keptFor n r).card = 2 ^ w.leadingZeros n) ∧
      (∀ v r, w.reduce? n v = some r → r < n) ∧
      w.count ≤ 2 * (w.keptWords n).card) ∧
    (∀ (w : Width) (v : BitVec w.bits), w.reduce? w.count v = some v.toNat) ∧
    ∀ (σ : Type) [Source σ] (s s' : σ) (r : ℕ),
      (∀ depth, (below .w32 (depth + 1)).runOn s = (some r, s') → r ≤ depth) ∧
      ((below .w32 BinaryOperator.all.length).runOn s = (some r, s') →
        BinaryOperator.all[r]? = some (BinaryOperator.ofIndex r)) ∧
      ((below .w64 (Value.leafMax - Value.leafMin + 1).toNat).runOn s = (some r, s') →
        Value.leafMin ≤ (Int64.ofInt (Value.leafMin + r)).toInt ∧
          (Int64.ofInt (Value.leafMin + r)).toInt = Value.leafMin + r ∧
          Value.leafMin + r ≤ Value.leafMax) := by
  refine ⟨fun w n hn hlt => ⟨fun v r => reduce?_eq_some_iff_mul_le hn hlt v, fun r hr => ?_,
    fun v r => lt_of_reduce?_eq_some hn, count_le_two_mul_card_keptWords hn hlt⟩,
    fun w => reduce?_count, fun σ _ s s' r => ⟨fun depth h => ?_, fun h => ?_, fun h => ?_⟩⟩
  · rw [card_keptFor hn hlt.le hr, kept_eq_two_pow hn hlt]
  · exact Nat.le_of_lt_succ (lt_of_runOn_below depth.succ_pos h)
  · exact BinaryOperator.getElem?_all (lt_of_runOn_below (by decide) h)
  · have hr : r < 2001 := lt_of_runOn_below (by decide) h
    have hint : (Int64.ofInt (Value.leafMin + r)).toInt = Value.leafMin + r :=
      ((Value.ofInt_offset_eq_iff hr _).mp rfl).symm
    rw [hint, Value.leafMin, Value.leafMax]
    omega

-- Draws at their upper ends: of a node at the largest depth there is, of an operator, and of the
-- largest integer. The last two begin with the largest word, which is rejected.
theorem uniform_draws_at_upper_ends :
    (1 ≤ 3 ∧ 3 < count .w32 ∧ 1 < 3 ∧ (keptFor .w32 3 1).card = 2 ^ 30 ∧
      reduce? .w32 3 0x55555555 = none ∧ reduce? .w32 3 0x55555556 = some 1 ∧
      2 ^ 32 ≤ 2 * (keptWords .w32 3).card) ∧
    reduce? .w32 (count .w32) 0xffffffff = some 0xffffffff ∧
    ((below .w32 (0xffffffff + 1)).runOn ([0xffffffff] : Script) = (some 0xffffffff, []) ∧
      0xffffffff ≤ 0xffffffff) ∧
    ((below .w32 3).runOn ([0xffffffff, 0xaaaaaaab, 7] : Script) = (some 2, [7]) ∧
      BinaryOperator.all[2]? = some .multiply) ∧
    (below .w64 2001).runOn ([0xffffffffffffffff, 0xffdf3f958ea60f9c] : Script) =
        (some 2000, []) ∧
      (Int64.ofInt (Value.leafMin + 2000)).toInt = Value.leafMin + 2000 ∧
      Value.leafMin + 2000 ≤ Value.leafMax := by
  obtain ⟨hwords, hfull, hdraws⟩ := uniform_reduce?_and_below_in_range
  obtain ⟨hiff, hcard, -, hhalf⟩ := hwords .w32 3 (by decide) (by decide)
  have hnode : (below .w32 (0xffffffff + 1)).runOn ([0xffffffff] : Script) =
      (some 0xffffffff, []) := by decide +kernel
  have hoperator : (below .w32 3).runOn ([0xffffffff, 0xaaaaaaab, 7] : Script) =
      (some 2, [7]) := by decide +kernel
  have hinteger : (below .w64 2001).runOn ([0xffffffffffffffff, 0xffdf3f958ea60f9c] : Script) =
      (some 2000, []) := by decide +kernel
  have hzeros : leadingZeros .w32 3 = 30 := by decide
  refine ⟨⟨by decide, by decide, by decide, ?_, by decide, ?_, hhalf⟩, hfull .w32 0xffffffff,
    ⟨hnode, (hdraws Script _ _ _).1 _ hnode⟩,
    ⟨hoperator, (hdraws Script _ _ _).2.1 hoperator⟩,
    hinteger, ((hdraws Script _ _ _).2.2 hinteger).2⟩
  · rw [hcard 1 (by decide), hzeros]
  · exact (hiff _ 1).mpr (by decide)

end ArithTree
