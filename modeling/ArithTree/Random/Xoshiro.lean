import ArithTree.Power

namespace ArithTree

-- The generator xoshiro256++. Unlike a source it has no end.
structure Xoshiro where
  s0 : UInt64
  s1 : UInt64
  s2 : UInt64
  s3 : UInt64

namespace Xoshiro

-- One step of SplitMix64, which spreads a seed over the state.
def seedStep (s : UInt64) : UInt64 := s + 0x9e3779b97f4a7c15

def seedWord (s : UInt64) : UInt64 :=
  let z := (s ^^^ (s >>> 30)) * 0xbf58476d1ce4e5b9
  let z := (z ^^^ (z >>> 27)) * 0x94d049bb133111eb
  z ^^^ (z >>> 31)

def ofSeed (seed : UInt64) : Xoshiro :=
  let a := seedStep seed
  let b := seedStep a
  let c := seedStep b
  let d := seedStep c
  ⟨seedWord a, seedWord b, seedWord c, seedWord d⟩

def rotateLeft (x amount : UInt64) : UInt64 := x <<< amount ||| x >>> (64 - amount)

def step (g : Xoshiro) : Xoshiro :=
  let s2 := g.s2 ^^^ g.s0
  let s3 := g.s3 ^^^ g.s1
  ⟨g.s0 ^^^ s3, g.s1 ^^^ s2, s2 ^^^ (g.s1 <<< 17), rotateLeft s3 45⟩

def next64 : StateM Xoshiro UInt64 :=
  fun g => (rotateLeft (g.s0 + g.s3) 23 + g.s0, g.step)

-- The high half of a 64-bit word.
def next32 : StateM Xoshiro UInt32 := do return ((← next64) >>> 32).toUInt32

-- A number below `n`: the high half of a word times `n`. If the low half leaves
-- the outcome open, the high half of a second product decides whether to carry.
def range (n : Nat) : StateM Xoshiro Nat := do
  let product := (← next32).toNat * n
  let high := product / 2 ^ 32
  let low := product % 2 ^ 32
  if 2 ^ 32 - n < low then
    let more := (← next32).toNat * n / 2 ^ 32
    return if 2 ^ 32 ≤ low + more then high + 1 else high
  else
    return high

-- One word in ten is an extreme one: zero, one or the largest.
def arbitrary32 : StateM Xoshiro UInt32 := do
  if (← range 10) = 0 then
    match ← range 3 with
    | 0 => return 0
    | 1 => return 1
    | _ => return UInt32.ofNat (2 ^ 32 - 1)
  else next32

def arbitrary64 : StateM Xoshiro UInt64 := do
  if (← range 10) = 0 then
    match ← range 3 with
    | 0 => return 0
    | 1 => return 1
    | _ => return UInt64.ofNat (2 ^ 64 - 1)
  else next64

end Xoshiro

end ArithTree
