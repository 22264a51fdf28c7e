import ArithTree.Random.Source

namespace ArithTree

namespace Width

-- How many words of a width there are.
def count (w : Width) : Nat := 2 ^ w.bits

-- Multiplying a word by `n` spreads all words evenly over `n` stretches of one word's span
-- each. A word is kept if it lands in the first part of its stretch, up to the zone. The
-- zone is as wide as the largest `n * 2 ^ k` that fits into the span, so each stretch
-- keeps `2 ^ k` words.
def zone (w : Width) (n : Nat) : Nat := n * 2 ^ (w.bits - 1 - n.log2) - 1

-- The stretch in which a word lands, if the word is kept. With as many stretches as
-- there are words, every word is kept and gives itself.
def reduce? (w : Width) (n : Nat) (v : BitVec w.bits) : Option Nat :=
  if v.toNat * n % w.count ≤ w.zone n then some (v.toNat * n / w.count) else none

end Width

namespace Draw

-- A uniform number below `n`, for `0 < n ≤ w.count`.
def below {σ : Type} [Source σ] (w : Width) (n : Nat) : Draw σ Nat := redraw w (w.reduce? n)

end Draw

end ArithTree
