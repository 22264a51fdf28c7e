import ArithTree.Random.Source
import Mathlib.Computability.Language

namespace ArithTree

def Width.read (w : Width) (word : UInt64) : BitVec w.bits := word.toBitVec.setWidth w.bits

namespace Draw

variable {α β : Type}

-- The scripts that a draw takes as a whole to give a result.
def runs (draw : Draw Script α) (a : α) : Language UInt64 :=
  {words | draw.runOn words = (some a, [])}

def runsIn (draw : Draw Script α) (results : Set α) : Language UInt64 :=
  {words | ∃ a ∈ results, words ∈ draw.runs a}

theorem mem_runs {draw : Draw Script α} {a : α} {words : Script} :
    words ∈ draw.runs a ↔ draw.runOn words = (some a, []) := Iff.rfl

theorem mem_runsIn {draw : Draw Script α} {results : Set α} {words : Script} :
    words ∈ draw.runsIn results ↔ ∃ a ∈ results, words ∈ draw.runs a := Iff.rfl

-- A draw is a prefix code if the words it takes decide on its result by themselves, and
-- it asks for more at every earlier point.
def PrefixCode (draw : Draw Script α) : Prop :=
  ∀ words a rest, draw.runOn words = (some a, rest) →
    ∃ taken, words = taken ++ rest ∧
      (∀ more, draw.runOn (taken ++ more) = (some a, more)) ∧
      ∀ front tail, taken = front ++ tail → tail ≠ [] → draw.runOn front = (none, [])

theorem prefixCode_pure (a : α) : PrefixCode (pure a) := by
  intro words b rest h
  obtain ⟨h, rfl⟩ := Prod.mk.inj h
  refine ⟨[], rfl, fun more => ?_, fun front tail happ htail => ?_⟩
  · simpa using h
  · exact absurd (List.append_eq_nil_iff.mp happ.symm).2 htail

theorem prefixCode_bind {draw : Draw Script α} {next : α → Draw Script β}
    (hdraw : PrefixCode draw) (hnext : ∀ a, PrefixCode (next a)) :
    PrefixCode (draw >>= next) := by
  intro words b rest h
  rw [runOn_bind] at h
  rcases hfirst : draw.runOn words with ⟨_ | a, middle⟩
  · simp [hfirst] at h
  · simp only [hfirst] at h
    obtain ⟨first, rfl, hrun, hcut⟩ := hdraw _ _ _ hfirst
    obtain ⟨second, rfl, hrun', hcut'⟩ := hnext a _ _ _ h
    refine ⟨first ++ second, by simp, fun more => ?_, fun front tail happ htail => ?_⟩
    · rw [runOn_bind, List.append_assoc, hrun]
      exact hrun' more
    · rw [runOn_bind]
      -- the cut is behind the first draw's words, or inside them
      rcases List.append_eq_append_iff.mp happ with ⟨front', rfl, hsecond⟩ | ⟨tail', hfront, rfl⟩
      · rw [hrun]
        exact hcut' front' tail hsecond htail
      · by_cases hempty : tail' = []
        · subst hempty
          rw [← List.append_nil front, ← hfront.trans (List.append_nil front), hrun]
          exact hcut' [] second rfl htail
        · rw [hcut front tail' hfront hempty]

-- What is rejected in front of some words makes no difference to them.
theorem redrawFrom_append {w : Width} {accept? : BitVec w.bits → Option α} {rejected : Script}
    (h : ∀ v ∈ rejected, accept? (w.read v) = none) (words : Script) :
    redrawFrom w accept? (rejected ++ words : Script) = redrawFrom w accept? words := by
  induction rejected with
  | nil => rfl
  | cons v rejected ih =>
    have hv : accept? (v.toBitVec.setWidth w.bits) = none := h v List.mem_cons_self
    rw [List.cons_append, Script.redrawFrom_cons, hv]
    exact ih fun u hu => h u (List.mem_cons_of_mem v hu)

-- The first accepted word is the last that is taken. If there is none, all words are taken.
theorem runOn_redraw_accepted {w : Width} {accept? : BitVec w.bits → Option α} {a : α}
    {rejected : Script} {word : UInt64} (h : ∀ v ∈ rejected, accept? (w.read v) = none)
    (hword : accept? (w.read word) = some a) (rest : Script) :
    (redraw w accept?).runOn (rejected ++ word :: rest) = (some a, rest) := by
  have hread : accept? (word.toBitVec.setWidth w.bits) = some a := hword
  rw [runOn_redraw, redrawFrom_append h, Script.redrawFrom_cons, hread]

theorem runOn_redraw_rejected {w : Width} {accept? : BitVec w.bits → Option α} {words : Script}
    (h : ∀ v ∈ words, accept? (w.read v) = none) :
    (redraw w accept?).runOn words = (none, []) := by
  rw [runOn_redraw, ← List.append_nil words, redrawFrom_append h, Script.redrawFrom_nil]

-- A redraw that gives a result has rejected any number of words and then accepted one.
theorem runOn_redraw_eq_some_iff {w : Width} {accept? : BitVec w.bits → Option α} {a : α}
    {words rest : Script} :
    (redraw w accept?).runOn words = (some a, rest) ↔
      ∃ rejected word, words = rejected ++ word :: rest ∧
        (∀ v ∈ rejected, accept? (w.read v) = none) ∧ accept? (w.read word) = some a := by
  constructor
  · intro h
    rw [runOn_redraw] at h
    induction words with
    | nil => simp at h
    | cons first words ih =>
      rw [Script.redrawFrom_cons] at h
      cases haccept : accept? (w.read first) with
      | some b =>
        have hread : accept? (first.toBitVec.setWidth w.bits) = some b := haccept
        simp only [hread, Prod.mk.injEq, Option.some.injEq] at h
        obtain ⟨rfl, rfl⟩ := h
        exact ⟨[], first, rfl, by simp, haccept⟩
      | none =>
        have hread : accept? (first.toBitVec.setWidth w.bits) = none := haccept
        simp only [hread] at h
        obtain ⟨rejected, word, rfl, hrejected, hword⟩ := ih h
        exact ⟨first :: rejected, word, rfl, by simpa [haccept] using hrejected, hword⟩
  · rintro ⟨rejected, word, rfl, hrejected, hword⟩
    exact runOn_redraw_accepted hrejected hword rest

theorem prefixCode_redraw (w : Width) (accept? : BitVec w.bits → Option α) :
    PrefixCode (redraw w accept? : Draw Script α) := by
  intro words a rest h
  obtain ⟨rejected, word, rfl, hrejected, hword⟩ := runOn_redraw_eq_some_iff.mp h
  refine ⟨rejected ++ [word], by simp, fun more => ?_, fun front tail happ htail => ?_⟩
  · rw [List.append_assoc]
    exact runOn_redraw_accepted hrejected hword more
  · -- a front that leaves something out leaves out the accepted word
    have hfront : front <+: rejected := by
      rcases List.prefix_concat_iff.mp ⟨tail, happ.symm⟩ with rfl | hfront
      · exact absurd (List.append_cancel_left (happ.symm.trans (List.append_nil _).symm)) htail
      · exact hfront
    exact runOn_redraw_rejected fun v hv => hrejected v (hfront.subset hv)

-- No run of a prefix code goes on where another one ends.
theorem PrefixCode.append_eq {draw : Draw Script α} (hdraw : PrefixCode draw) {a b : α}
    {words more : Script} (h : words ∈ draw.runs a) (h' : words ++ more ∈ draw.runs b) :
    more = [] := by
  obtain ⟨taken, htaken, hrun, -⟩ := hdraw _ _ _ h
  obtain rfl : words = taken := by simpa using htaken
  exact (Prod.mk.inj ((hrun more).symm.trans h')).2

theorem mem_runs_pure {a b : α} {words : Script} :
    words ∈ (pure a : Draw Script α).runs b ↔ words = [] ∧ a = b := by
  rw [mem_runs, runOn_pure, Prod.mk.injEq, Option.some.injEq, and_comm]

-- A run of two draws in a row is a run of the one followed by a run of the other.
theorem mem_runs_bind {draw : Draw Script α} (hdraw : PrefixCode draw)
    {next : α → Draw Script β} {b : β} {words : Script} :
    words ∈ (draw >>= next).runs b ↔ ∃ a, words ∈ draw.runs a * (next a).runs b := by
  simp only [Language.mem_mul]
  constructor
  · intro h
    rw [mem_runs, runOn_bind] at h
    rcases hfirst : draw.runOn words with ⟨_ | a, middle⟩
    · simp [hfirst] at h
    · simp only [hfirst] at h
      obtain ⟨first, rfl, hrun, -⟩ := hdraw _ _ _ hfirst
      exact ⟨a, first, by simpa [mem_runs] using hrun [], middle, h, rfl⟩
  · rintro ⟨a, first, hfirst, second, hsecond, rfl⟩
    obtain ⟨taken, htaken, hrun, -⟩ := hdraw _ _ _ hfirst
    obtain rfl : first = taken := by simpa using htaken
    rw [mem_runs, runOn_bind, hrun]
    exact hsecond

-- The words behind a draw depend on no more than whether its result is among some.
theorem runs_bind_eq {draw : Draw Script α} (hdraw : PrefixCode draw) {next : α → Draw Script β}
    {b : β} {results : Set α} {L : Language UInt64} (hin : ∀ a ∈ results, (next a).runs b = L)
    (hout : ∀ a ∉ results, (next a).runs b = 0) :
    (draw >>= next).runs b = draw.runsIn results * L := by
  ext words
  rw [mem_runs_bind hdraw]
  simp only [Language.mem_mul, mem_runsIn]
  constructor
  · rintro ⟨a, first, hfirst, second, hsecond, rfl⟩
    by_cases ha : a ∈ results
    · exact ⟨first, ⟨a, ha, hfirst⟩, second, hin a ha ▸ hsecond, rfl⟩
    · rw [hout a ha] at hsecond
      exact absurd hsecond (Language.notMem_zero second)
  · rintro ⟨first, ⟨a, ha, hfirst⟩, second, hsecond, rfl⟩
    exact ⟨a, first, hfirst, second, (hin a ha).symm ▸ hsecond, rfl⟩

theorem runsIn_singleton (draw : Draw Script α) (a : α) : draw.runsIn {a} = draw.runs a := by
  ext words
  simp [mem_runsIn]

theorem runsIn_empty (draw : Draw Script α) : draw.runsIn ∅ = 0 := by
  ext words
  simp [mem_runsIn, Language.notMem_zero]

-- A result that does not go into the words behind it.
theorem runs_bind_pure {draw : Draw Script α} (hdraw : PrefixCode draw) (f : α → β) (b : β) :
    (draw >>= fun a => pure (f a)).runs b = draw.runsIn {a | f a = b} := by
  ext words
  simp only [mem_runs_bind hdraw, mem_runsIn, Language.mem_mul, mem_runs_pure, Set.mem_ofPred_eq]
  constructor
  · rintro ⟨a, first, hfirst, _, ⟨rfl, rfl⟩, rfl⟩
    exact ⟨a, rfl, by simpa using hfirst⟩
  · rintro ⟨a, rfl, hwords⟩
    exact ⟨a, words, hwords, [], ⟨rfl, rfl⟩, by simp⟩

-- A run of a redrawn word is any number of rejected words and then the accepted one.
theorem mem_runs_redraw {w : Width} {accept? : BitVec w.bits → Option α} {a : α}
    {words : Script} :
    words ∈ (redraw w accept? : Draw Script α).runs a ↔
      ∃ rejected word, words = rejected ++ [word] ∧
        (∀ v ∈ rejected, accept? (w.read v) = none) ∧ accept? (w.read word) = some a :=
  runOn_redraw_eq_some_iff

end Draw

end ArithTree
