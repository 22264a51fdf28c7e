namespace ArithTree

-- The largest depth that may be requested. Up to it the counts of a generated tree fit into
-- 64 bits.
def maxDepth : Nat := 64

-- A requested depth above the largest one.
structure DepthTooLarge where
  depth : Nat
  max : Nat
  deriving DecidableEq

namespace DepthTooLarge

def message (e : DepthTooLarge) : String :=
  s!"maximum depth {e.depth} is too large (at most {e.max} is supported)"

-- The error with its fields by name.
def outline (e : DepthTooLarge) : String :=
  s!"DepthTooLarge \x7b depth: {e.depth}, max: {e.max} \x7d"

end DepthTooLarge

def checkDepth (depth : Nat) : Except DepthTooLarge Nat :=
  if depth ≤ maxDepth then .ok depth else .error ⟨depth, maxDepth⟩

end ArithTree
