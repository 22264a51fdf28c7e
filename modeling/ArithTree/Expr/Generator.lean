import ArithTree.Expr.Basic
import ArithTree.Random.Bounded

namespace ArithTree

variable {σ : Type} [Source σ]

namespace Value

-- The range of generated integers.
def leafMin : Int := -1000
def leafMax : Int := 1000

-- The top 53 bits of a word as a fraction below one, unless its text has an exponent.
def plainReal? (word : BitVec 64) : Option Binary64 :=
  let x := Binary64.ofUnitFraction (word.toNat / 2 ^ 11)
  if 'e' ∈ x.numeral then none else some x

-- An integer or a real with even odds: a uniform integer of the range, or a uniform
-- fraction that is redrawn until its text is plain.
def generate : Draw σ Value := do
  let coin ← Draw.word .w64
  if coin.toNat < 2 ^ 63 then
    let offset ← Draw.below .w64 (leafMax - leafMin + 1).toNat
    return int (Int64.ofInt (leafMin + offset))
  else
    return real (← Draw.redraw .w64 plainReal?)

end Value

namespace BinaryOperator

-- The operator at a place in the list of all.
def ofIndex : Nat → BinaryOperator
  | 0 => add
  | 1 => subtract
  | _ => multiply

def generate : Draw σ BinaryOperator := do
  return ofIndex (← Draw.below .w32 all.length)

end BinaryOperator

namespace Expr

-- A random tree of at most the given depth. A number from zero to the depth decides on the
-- node: zero makes a leaf, one a negation and all else a binary operator. At depth zero the
-- number is drawn as well, although it can only be zero.
def generate : (depth : Nat) → Draw σ Expr
  | 0 => do
    let _ ← Draw.below .w32 1
    return leaf (← Value.generate)
  | depth + 1 => do
    match ← Draw.below .w32 (depth + 2) with
    | 0 => return leaf (← Value.generate)
    | 1 => return unary .negate (← generate depth)
    | _ =>
      let operator ← BinaryOperator.generate
      let left ← generate depth
      let right ← generate depth
      return binary operator left right

end Expr

end ArithTree
