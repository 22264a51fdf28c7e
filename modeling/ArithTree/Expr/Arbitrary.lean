import ArithTree.Expr.Generator
import ArithTree.Random.ChaCha
import ArithTree.Random.Xoshiro

namespace ArithTree

namespace Expr

-- Test trees stay shallow whatever their size may be.
def maxTestDepth : Nat := 8

-- A tree for a test of the given size. Only the depth and a seed are drawn from the
-- generator of the test, and the seed's own keystream gives the tree.
def arbitrary (size : Nat) : StateM Xoshiro (Option Expr) := do
  let depth := (← Xoshiro.arbitrary32).toNat % (min size maxTestDepth + 1)
  let seed ← Xoshiro.arbitrary64
  return ((generate depth).runOn (Keystream.ofSeed seed)).1

-- The trees for one test after another, all from one generator.
def arbitraries (size : Nat) : (count : Nat) → StateM Xoshiro (List (Option Expr))
  | 0 => return []
  | count + 1 => do
    let t ← arbitrary size
    return t :: (← arbitraries size count)

end Expr

end ArithTree
