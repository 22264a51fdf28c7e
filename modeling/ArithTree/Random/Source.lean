import ArithTree.Power

namespace ArithTree

-- The two sizes of random word that a source can be asked for.
inductive Width
  | w32
  | w64
  deriving DecidableEq

def Width.bits : Width → Nat
  | w32 => 32
  | w64 => 64

-- A source of random words that comes to an end. Every word drawn lowers `left`, so that
-- drawing again and again until a word is accepted ends too.
class Source (σ : Type) where
  next? : (w : Width) → σ → Option (BitVec w.bits × σ)
  left : σ → Nat
  left_lt {w : Width} {s s' : σ} {v : BitVec w.bits} :
    next? w s = some (v, s') → left s' < left s

-- A random result, or none if the source ends before there is one. The words that were
-- drawn stay drawn.
abbrev Draw (σ : Type) := OptionT (StateM σ)

namespace Draw

variable {σ α : Type}

-- The result of a draw with what is left of the source.
def runOn (draw : Draw σ α) (s : σ) : Option α × σ := StateT.run (OptionT.run draw) s

@[simp]
theorem runOn_pure (a : α) (s : σ) : (pure a : Draw σ α).runOn s = (some a, s) := rfl

theorem runOn_bind {β : Type} (draw : Draw σ α) (next : α → Draw σ β) (s : σ) :
    (draw >>= next).runOn s =
      match draw.runOn s with
      | (some a, s) => (next a).runOn s
      | (none, s) => (none, s) := by
  simp only [runOn, OptionT.run_bind, StateT.run_bind, Option.elimM]
  rcases StateT.run (OptionT.run draw) s with ⟨_ | a, s'⟩ <;> rfl

-- The results of drawing again and again from one source. A draw that the source cuts
-- short is the last.
def times (draw : Draw σ α) : Nat → σ → List (Option α) × σ
  | 0, s => ([], s)
  | count + 1, s =>
    match draw.runOn s with
    | (none, s) => ([none], s)
    | (some a, s) =>
      let (results, s) := draw.times count s
      (some a :: results, s)

variable [Source σ]

-- Draws words until one is accepted.
def redrawFrom (w : Width) (accept? : BitVec w.bits → Option α) (s : σ) : Option α × σ :=
  match _h : Source.next? w s with
  | none => (none, s)
  | some (v, s') =>
    match accept? v with
    | some a => (some a, s')
    | none => redrawFrom w accept? s'
termination_by Source.left s
decreasing_by exact Source.left_lt _h

def redraw (w : Width) (accept? : BitVec w.bits → Option α) : Draw σ α :=
  OptionT.mk (redrawFrom w accept?)

@[simp]
theorem runOn_redraw (w : Width) (accept? : BitVec w.bits → Option α) (s : σ) :
    (redraw w accept?).runOn s = redrawFrom w accept? s := rfl

-- A single word.
def word (w : Width) : Draw σ (BitVec w.bits) := redraw w some

end Draw

-- A script holds the words to come as 64-bit words. A 32-bit draw takes a whole one and
-- uses its low half.
abbrev Script := List UInt64

namespace Script

def next? (w : Width) : Script → Option (BitVec w.bits × Script)
  | [] => none
  | word :: rest => some (word.toBitVec.setWidth w.bits, rest)

instance : Source Script where
  next? := Script.next?
  left := List.length
  left_lt {w s s' v} h := by
    cases s with
    | nil => simp [Script.next?] at h
    | cons word rest =>
      obtain ⟨-, rfl⟩ := Prod.mk.inj (Option.some.inj h)
      exact Nat.lt_succ_self _

variable {α : Type}

@[simp]
theorem redrawFrom_nil (w : Width) (accept? : BitVec w.bits → Option α) :
    Draw.redrawFrom w accept? ([] : Script) = (none, []) := by
  rw [Draw.redrawFrom]
  rfl

theorem redrawFrom_cons (w : Width) (accept? : BitVec w.bits → Option α) (word : UInt64)
    (rest : Script) :
    Draw.redrawFrom w accept? (word :: rest : Script) =
      match accept? (word.toBitVec.setWidth w.bits) with
      | some a => (some a, rest)
      | none => Draw.redrawFrom w accept? rest := by
  rw [Draw.redrawFrom]
  rfl

end Script

end ArithTree
