import ArithTree.Expr.Arbitrary
import ArithTree.Proofs.Generator.Counts

namespace ArithTree

open Binary64

namespace Value

-- Integers up to a thousand in magnitude, and reals from zero up to one without an exponent in
-- their text.
def IsPlain : Value → Prop
  | int n => -1000 ≤ n.toInt ∧ n.toInt ≤ 1000
  | real x =>
    x.isNegative = false ∧ x.isFinite ∧ x.magnitude < 1 ∧ 'e' ∉ (real x).text.toList

theorem InRange.isPlain {v : Value} (h : v.InRange) : v.IsPlain := by
  cases v with
  | int n => exact h
  | real x =>
    obtain ⟨k, hplain, hlt, rfl⟩ := isPlainFraction_iff.mp h
    refine ⟨isNegative_ofUnitFraction hlt, isFinite_ofUnitFraction hlt, ?_, ?_⟩
    · rw [magnitude_ofUnitFraction hlt, div_lt_one (by norm_num)]
      exact_mod_cast hlt
    · rw [toList_text, numeral, e_mem_numeral_ofUnitFraction hlt]
      omega

end Value

namespace Expr

variable {t : Expr} {depth largest size : ℕ}

-- What a test of some size may expect of its trees.
structure IsTestTree (t : Expr) (size : ℕ) : Prop where
  depth_le : t.depth ≤ min size maxTestDepth
  lineCount_le : t.lineCount ≤ 2 ^ max (min size maxTestDepth) 1 - 1
  lineCount_le_255 : t.lineCount ≤ 255
  binary_le {distance : ℕ} {operator : BinaryOperator} {left right : Expr}
    (h : HasAt t distance (binary operator left right)) : distance + 2 ≤ min size maxTestDepth
  leaf_isPlain : ∀ v ∈ t.leaves, v.IsPlain

theorem InRange.mono (h : t.InRange depth) (hle : depth ≤ largest) : t.InRange largest where
  leaf_inRange := h.leaf_inRange
  depth_le := h.depth_le.trans hle
  binary_le hat := (h.binary_le hat).trans hle

theorem InRange.isTestTree (h : t.InRange (min size maxTestDepth)) : t.IsTestTree size where
  depth_le := h.depth_le
  lineCount_le := by
    have hlines := h.lineCount_lt
    have hmax : min size maxTestDepth - 1 + 1 = max (min size maxTestDepth) 1 := by omega
    rw [hmax] at hlines
    exact Nat.le_sub_one_of_lt hlines
  lineCount_le_255 := by
    have hlines : t.lineCount < 2 ^ 8 := (h.mono (Nat.min_le_right _ _)).lineCount_lt
    omega
  binary_le := h.binary_le
  leaf_isPlain v hv := (h.leaf_inRange v hv).isPlain

-- A number is brought down to a depth that the size allows, whatever number it is.
theorem Generated.isTestTree {number : UInt32}
    (h : Generated (number.toNat % (min size maxTestDepth + 1)) t) : t.IsTestTree size :=
  (h.inRange.mono (Nat.le_of_lt_succ (Nat.mod_lt _ (Nat.succ_pos _)))).isTestTree

-- What is drawn from the generator of a test for one tree, and the tree that comes of it.
def drawNumberAndSeed : StateM Xoshiro (UInt32 × UInt64) := do
  return (← Xoshiro.arbitrary32, ← Xoshiro.arbitrary64)

def ofNumberAndSeed? (size : ℕ) (drawn : UInt32 × UInt64) : Option Expr :=
  ((generate (drawn.1.toNat % (min size maxTestDepth + 1))).runOn (Keystream.ofSeed drawn.2)).1

theorem arbitrary_eq (size : ℕ) :
    arbitrary size = ofNumberAndSeed? size <$> drawNumberAndSeed := rfl

theorem generated_of_ofNumberAndSeed? {drawn : UInt32 × UInt64}
    (h : ofNumberAndSeed? size drawn = some t) :
    Generated (drawn.1.toNat % (min size maxTestDepth + 1)) t :=
  ⟨Keystream, inferInstance, Keystream.ofSeed drawn.2, _, Prod.ext h rfl⟩

-- The size of a test bounds its trees, from every state of the generator. It does so however the
-- number and the words of the seed come about: every number makes a depth that the size allows,
-- and at that depth every source of words gives such trees.
theorem isTestTree_of_arbitrary (size : ℕ) (t : Expr) :
    (∀ g : Xoshiro, ((arbitrary size).run g).1 = some t → t.IsTestTree size) ∧
    ∀ number : UInt32, Generated (number.toNat % (min size maxTestDepth + 1)) t →
      t.IsTestTree size := by
  constructor
  · intro g h
    rw [arbitrary_eq] at h
    exact (generated_of_ofNumberAndSeed? h).isTestTree
  · intro number h
    exact h.isTestTree

-- The largest tree of a test of size two.
theorem isTestTree_product :
    let t := binary .multiply (unary .negate (leaf (.int 541)))
      (unary .negate (leaf (.real ⟨4602862059179447926⟩)))
    ((arbitrary 2).run (Xoshiro.ofSeed 17)).1 = some t ∧ t.depth = 2 ∧ t.lineCount = 3 ∧
      t.IsTestTree 2 := by
  intro t
  have hrun : ((arbitrary 2).run (Xoshiro.ofSeed 17)).1 = some t := by decide +kernel
  exact ⟨hrun, rfl, rfl, (isTestTree_of_arbitrary 2 t).1 (Xoshiro.ofSeed 17) hrun⟩

def drawNumbersAndSeeds : (count : ℕ) → StateM Xoshiro (List (UInt32 × UInt64))
  | 0 => return []
  | count + 1 => do
    let drawn ← drawNumberAndSeed
    return drawn :: (← drawNumbersAndSeeds count)

-- The size has no part in what is drawn, only in the trees that come of it.
theorem arbitraries_eq (size count : ℕ) :
    arbitraries size count = List.map (ofNumberAndSeed? size) <$> drawNumbersAndSeeds count := by
  induction count with
  | zero => rfl
  | succ count ih =>
    rw [arbitraries, drawNumbersAndSeeds, arbitrary_eq, ih]
    simp only [map_eq_pure_bind, bind_assoc, pure_bind, List.map_cons]

theorem run_arbitraries (size count : ℕ) (g : Xoshiro) :
    (arbitraries size count).run g =
      (((drawNumbersAndSeeds count).run g).1.map (ofNumberAndSeed? size),
        ((drawNumbersAndSeeds count).run g).2) := by
  rw [arbitraries_eq]
  rfl

theorem ofNumberAndSeed?_congr {size size' : ℕ}
    (h : min size maxTestDepth = min size' maxTestDepth) :
    ofNumberAndSeed? size = ofNumberAndSeed? size' := by
  funext drawn
  rw [ofNumberAndSeed?, ofNumberAndSeed?, h]

-- However many trees are drawn from one state, be it that of a seed, two sizes leave the generator
-- in the same state, so that the next word is the same. What trees come of it, and whether one
-- comes of it, has no part in the state. Sizes that allow the same depths give the same trees, too.
theorem arbitraries_same_state (g : Xoshiro) (count size size' : ℕ) :
    ((arbitraries size count).run g).2 = ((arbitraries size' count).run g).2 ∧
    (Xoshiro.arbitrary64.run ((arbitraries size count).run g).2).1 =
      (Xoshiro.arbitrary64.run ((arbitraries size' count).run g).2).1 ∧
    (min size maxTestDepth = min size' maxTestDepth →
      ((arbitraries size count).run g).1 = ((arbitraries size' count).run g).1) := by
  rw [run_arbitraries, run_arbitraries]
  refine ⟨rfl, rfl, fun h => ?_⟩
  rw [ofNumberAndSeed?_congr h]

-- Tests of sizes two, eight and a hundred. The first ones differ from the others in their trees.
theorem arbitraries_of_three_sizes :
    let g := Xoshiro.ofSeed 0
    ((arbitraries 2 2).run g).1 ≠ ((arbitraries 100 2).run g).1 ∧
    ((arbitraries 2 2).run g).2 = ((arbitraries 100 2).run g).2 ∧
    min 8 maxTestDepth = min 100 maxTestDepth ∧
    ((arbitraries 8 2).run g).1 = ((arbitraries 100 2).run g).1 := by
  intro g
  have hsizes : min 8 maxTestDepth = min 100 maxTestDepth := by decide
  have hdiffer : ((arbitraries 2 2).run g).1 ≠ ((arbitraries 100 2).run g).1 := by decide +kernel
  obtain ⟨hstate, -, -⟩ := arbitraries_same_state g 2 2 100
  obtain ⟨-, -, htrees⟩ := arbitraries_same_state g 2 8 100
  exact ⟨hdiffer, hstate, hsizes, htrees hsizes⟩

end Expr

end ArithTree
