import ArithTree.Random.Source

namespace ArithTree

namespace ChaCha

abbrev State := Vector UInt32 16

def rotateLeft (x amount : UInt32) : UInt32 := x <<< amount ||| x >>> (32 - amount)

def quarterRound (s : State) (a b c d : Fin 16) : State :=
  let s := s.set a (s[a] + s[b])
  let s := s.set d (rotateLeft (s[d] ^^^ s[a]) 16)
  let s := s.set c (s[c] + s[d])
  let s := s.set b (rotateLeft (s[b] ^^^ s[c]) 12)
  let s := s.set a (s[a] + s[b])
  let s := s.set d (rotateLeft (s[d] ^^^ s[a]) 8)
  let s := s.set c (s[c] + s[d])
  s.set b (rotateLeft (s[b] ^^^ s[c]) 7)

-- A round over the four columns and one over the four diagonals.
def doubleRound (s : State) : State :=
  let s := quarterRound s 0 4 8 12
  let s := quarterRound s 1 5 9 13
  let s := quarterRound s 2 6 10 14
  let s := quarterRound s 3 7 11 15
  let s := quarterRound s 0 5 10 15
  let s := quarterRound s 1 6 11 12
  let s := quarterRound s 2 7 8 13
  quarterRound s 3 4 9 14

-- The state before the rounds: four constants, the key, the number of the block in two
-- words with the low one first, and a nonce of zero.
def start (key : Vector UInt32 8) (block : Nat) : State :=
  let constants : Vector UInt32 4 := #v[0x61707865, 0x3320646e, 0x79622d32, 0x6b206574]
  let position : Vector UInt32 4 := #v[UInt32.ofNat block, UInt32.ofNat (block / 2 ^ 32), 0, 0]
  constants ++ key ++ position

-- Twelve rounds, and the start added to what they give.
def block (key : Vector UInt32 8) (number : Nat) : State :=
  let initial := start key number
  let mixed := Nat.repeat doubleRound 6 initial
  Vector.zipWith (· + ·) initial mixed

end ChaCha

-- The words of the blocks in order: those of the current block that are not drawn yet,
-- and the number of the next block. The stream ends where block numbers outgrow 64 bits.
structure Keystream where
  key : Vector UInt32 8
  nextBlock : Nat
  pending : List UInt32

namespace Keystream

def blockLimit : Nat := 2 ^ 64

-- Each step of a linear congruential sequence gives one word of the key: some of the high
-- bits, rotated by the highest five.
def seedStep (s : UInt64) : UInt64 := s * 6364136223846793005 + 11634580027462260723

def seedWord (s : UInt64) : UInt32 :=
  let x := (((s >>> 18) ^^^ s) >>> 27).toUInt32
  let rotation := (s >>> 59).toUInt32
  x >>> rotation ||| x <<< (32 - rotation)

def ofSeed (seed : UInt64) : Keystream where
  key := Vector.ofFn fun i : Fin 8 => seedWord (Nat.repeat seedStep (i + 1) seed)
  nextBlock := 0
  pending := []

def left (s : Keystream) : Nat := (blockLimit - s.nextBlock) * 16 + s.pending.length

def nextWord? (s : Keystream) : Option (UInt32 × Keystream) :=
  match s.pending with
  | word :: rest => some (word, { s with pending := rest })
  | [] =>
    if s.nextBlock < blockLimit then
      match (ChaCha.block s.key s.nextBlock).toList with
      | word :: rest => some (word, ⟨s.key, s.nextBlock + 1, rest⟩)
      | [] => none
    else none

-- A 64-bit draw takes two words, the low one first, also across the end of a block.
def next? (w : Width) (s : Keystream) : Option (BitVec w.bits × Keystream) :=
  match w with
  | .w32 => do
    let (word, s) ← s.nextWord?
    some (word.toBitVec, s)
  | .w64 => do
    let (low, s) ← s.nextWord?
    let (high, s) ← s.nextWord?
    some (high.toBitVec ++ low.toBitVec, s)

theorem left_nextWord? {s s' : Keystream} {word : UInt32} (h : s.nextWord? = some (word, s')) :
    s'.left < s.left := by
  unfold nextWord? at h
  split at h
  next head rest hpending =>
    obtain ⟨-, rfl⟩ := Prod.mk.inj (Option.some.inj h)
    simp [left, hpending]
  next hpending =>
    split at h
    next hlt =>
      split at h
      next head rest hblock =>
        have hlength := congrArg List.length hblock
        simp only [Vector.length_toList, List.length_cons] at hlength
        obtain ⟨-, rfl⟩ := Prod.mk.inj (Option.some.inj h)
        simp only [left, hpending, List.length_nil]
        omega
      next => simp at h
    next => simp at h

instance : Source Keystream where
  next? := Keystream.next?
  left := Keystream.left
  left_lt {w s s' v} h := by
    cases w with
    | w32 =>
      simp only [next?, Option.bind_eq_bind, Option.bind_eq_some_iff] at h
      obtain ⟨⟨word, s₁⟩, hword, hs⟩ := h
      obtain ⟨-, rfl⟩ := Prod.mk.inj (Option.some.inj hs)
      exact left_nextWord? hword
    | w64 =>
      simp only [next?, Option.bind_eq_bind, Option.bind_eq_some_iff] at h
      obtain ⟨⟨low, s₁⟩, hlow, ⟨high, s₂⟩, hhigh, hs⟩ := h
      obtain ⟨-, rfl⟩ := Prod.mk.inj (Option.some.inj hs)
      exact Nat.lt_trans (left_nextWord? hhigh) (left_nextWord? hlow)

end Keystream

end ArithTree
