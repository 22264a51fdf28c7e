import ArithTree.Proofs.Random.Runs
import Mathlib.Algebra.Ring.Nat

namespace ArithTree.Draw

variable {α β : Type}

-- A draw that gives nothing leaves nothing.
def UsesUp (draw : Draw Script α) : Prop :=
  ∀ words rest, draw.runOn words = (none, rest) → rest = []

theorem usesUp_pure (a : α) : UsesUp (pure a) := by
  intro words rest h
  cases h

theorem usesUp_bind {draw : Draw Script α} {next : α → Draw Script β} (hdraw : UsesUp draw)
    (hnext : ∀ a, UsesUp (next a)) : UsesUp (draw >>= next) := by
  intro words rest h
  rw [runOn_bind] at h
  rcases hfirst : draw.runOn words with ⟨_ | a, middle⟩
  · simp only [hfirst, Prod.mk.injEq, true_and] at h
    exact hdraw words rest (h ▸ hfirst)
  · simp only [hfirst] at h
    exact hnext a middle rest h

theorem usesUp_redraw (w : Width) (accept? : BitVec w.bits → Option α) :
    UsesUp (redraw w accept? : Draw Script α) := by
  intro words rest h
  rw [runOn_redraw] at h
  induction words with
  | nil =>
    rw [Script.redrawFrom_nil] at h
    exact (Prod.mk.inj h).2.symm
  | cons word words ih =>
    rw [Script.redrawFrom_cons] at h
    split at h
    · cases h
    · exact ih h

-- A draw gives a result from a script and takes so many of the words, all from the front.
def Takes (draw : Draw Script α) (words : Script) (a : α) (count : ℕ) : Prop :=
  count ≤ words.length ∧ draw.runOn words = (some a, words.drop count)

-- The words that a draw takes decide on its result by themselves. Another script that begins
-- with them gives the same result for them, and a script that ends before they do is used up
-- for nothing.
structure SelfDelimiting (draw : Draw Script α) : Prop where
  takes_or_usesUp (words : Script) :
    (∃ a count, draw.Takes words a count) ∨ draw.runOn words = (none, [])
  takes_of_take_eq {words words' : Script} {a : α} {count : ℕ} (h : draw.Takes words a count)
    (hagree : words'.take count = words.take count) : draw.Takes words' a count
  usesUp_take {words : Script} {a : α} {count fewer : ℕ} (h : draw.Takes words a count)
    (hfewer : fewer < count) : draw.runOn (words.take fewer) = (none, [])

theorem PrefixCode.exists_takes {draw : Draw Script α} (hdraw : PrefixCode draw) {a : α}
    {words rest : Script} (h : draw.runOn words = (some a, rest)) :
    ∃ count, draw.Takes words a count := by
  obtain ⟨taken, rfl, -⟩ := hdraw words a rest h
  exact ⟨taken.length, by simp, by rw [h, List.drop_left]⟩

-- The words of a run, as those that the draw takes.
theorem PrefixCode.takes_iff {draw : Draw Script α} (hdraw : PrefixCode draw) {a : α}
    {words : Script} {count : ℕ} :
    draw.Takes words a count ↔ count ≤ words.length ∧ words.take count ∈ draw.runs a := by
  constructor
  · rintro ⟨hle, h⟩
    obtain ⟨taken, hwords, hrun, -⟩ := hdraw words a _ h
    have htaken : words.take count = taken :=
      List.append_cancel_right ((List.take_append_drop count words).trans hwords)
    refine ⟨hle, ?_⟩
    rw [htaken, mem_runs]
    simpa using hrun []
  · rintro ⟨hle, h⟩
    obtain ⟨taken, htaken, hrun, -⟩ := hdraw _ a [] h
    refine ⟨hle, ?_⟩
    have hall := hrun (words.drop count)
    rwa [← List.append_nil taken, ← htaken, List.take_append_drop] at hall

theorem PrefixCode.selfDelimiting {draw : Draw Script α} (hdraw : PrefixCode draw)
    (hends : UsesUp draw) : SelfDelimiting draw where
  takes_or_usesUp words := by
    rcases hrun : draw.runOn words with ⟨_ | a, rest⟩
    · rw [hends words rest hrun]
      exact .inr rfl
    · obtain ⟨count, h⟩ := hdraw.exists_takes hrun
      exact .inl ⟨a, count, h⟩
  takes_of_take_eq {words words' a count} h hagree := by
    obtain ⟨hle, hmem⟩ := hdraw.takes_iff.mp h
    have hlength := congrArg List.length hagree
    rw [List.length_take, List.length_take] at hlength
    exact hdraw.takes_iff.mpr ⟨by omega, hagree ▸ hmem⟩
  usesUp_take {words a count fewer} h hfewer := by
    obtain ⟨hle, hmem⟩ := hdraw.takes_iff.mp h
    obtain ⟨taken, htaken, -, hcut⟩ := hdraw _ a [] hmem
    rw [List.append_nil] at htaken
    have hfront : (words.take count).take fewer = words.take fewer := by
      rw [List.take_take, Nat.min_eq_left hfewer.le]
    have hsplit : taken = words.take fewer ++ (words.take count).drop fewer := by
      rw [← hfront, List.take_append_drop, htaken]
    -- fewer words than are taken leave some of them out
    apply hcut _ _ hsplit
    rw [← List.length_pos_iff, List.length_drop, List.length_take]
    omega

-- Runs of a draw in turn, with how many words each of them takes: each one is alone with the
-- words that those before it leave.
def InTurn (draw : Draw Script α) (words : Script) (runs : List (α × ℕ)) : Prop :=
  ∀ (i : ℕ) (h : i < runs.length),
    draw.Takes (words.drop ((runs.take i).map Prod.snd).sum) runs[i].1 runs[i].2

theorem inTurn_cons {draw : Draw Script α} {words : Script} {a : α} {count : ℕ}
    {runs : List (α × ℕ)} (h : draw.Takes words a count)
    (hruns : draw.InTurn (words.drop count) runs) : draw.InTurn words ((a, count) :: runs) := by
  rintro (_ | i) hi
  · exact h
  · have hrun := hruns i (Nat.lt_of_succ_lt_succ hi)
    rwa [List.drop_drop] at hrun

-- To draw again and again from one source is to draw in turn. The results are those of the runs
-- by themselves, and the words taken are all of theirs. If the source ends first, the last
-- run is one that uses it up.
def RepeatsInTurn (draw : Draw Script α) : Prop :=
  ∀ (count : ℕ) (words : Script), ∃ runs : List (α × ℕ), draw.InTurn words runs ∧
    (runs.map Prod.snd).sum ≤ words.length ∧
    (runs.length = count ∧
        draw.times count words =
          (runs.map fun run => some run.1, words.drop (runs.map Prod.snd).sum) ∨
      runs.length < count ∧ draw.runOn (words.drop (runs.map Prod.snd).sum) = (none, []) ∧
        draw.times count words = ((runs.map fun run => some run.1) ++ [none], []))

theorem SelfDelimiting.repeatsInTurn {draw : Draw Script α} (hdraw : SelfDelimiting draw) :
    RepeatsInTurn draw := by
  intro count
  induction count with
  | zero =>
    intro words
    exact ⟨[], fun i h => absurd h (Nat.not_lt_zero i), Nat.zero_le _, .inl ⟨rfl, rfl⟩⟩
  | succ count ih =>
    intro words
    rw [times]
    rcases hdraw.takes_or_usesUp words with ⟨a, first, h⟩ | h
    · obtain ⟨runs, hruns, hsum, hend⟩ := ih (words.drop first)
      have htotal : (((a, first) :: runs).map Prod.snd).sum = first + (runs.map Prod.snd).sum := by
        rw [List.map_cons, List.sum_cons]
      rw [List.length_drop] at hsum
      rw [List.drop_drop] at hend
      refine ⟨(a, first) :: runs, inTurn_cons h hruns, by have := h.1; omega, ?_⟩
      rw [htotal, h.2]
      rcases hend with ⟨hlength, htimes⟩ | ⟨hlength, hlast, htimes⟩
      · refine .inl ⟨congrArg Nat.succ hlength, ?_⟩
        simp only [htimes, List.map_cons]
      · refine .inr ⟨Nat.succ_lt_succ hlength, hlast, ?_⟩
        simp only [htimes, List.map_cons, List.cons_append]
    · refine ⟨[], fun i h => absurd h (Nat.not_lt_zero i), Nat.zero_le _, .inr ?_⟩
      refine ⟨Nat.succ_pos count, h, ?_⟩
      rw [h]
      rfl

end ArithTree.Draw
