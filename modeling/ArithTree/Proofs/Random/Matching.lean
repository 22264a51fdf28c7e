import Mathlib.Data.Set.Card
import ArithTree.Proofs.Random.Runs

namespace ArithTree.Script

variable {α : Type} {L L' M M' : Language UInt64}

-- Two languages of scripts match if they correspond one to one with lengths kept.
def Matched (L L' : Language UInt64) : Prop :=
  ∃ e : {words // words ∈ L} ≃ {words // words ∈ L'},
    ∀ words, (e words).1.length = words.1.length

-- Every script of the product splits in one way only.
def Unambiguous (L M : Language UInt64) : Prop :=
  ∀ u ∈ L, ∀ v ∈ M, ∀ u' ∈ L, ∀ v' ∈ M, u ++ v = u' ++ v' → u = u' ∧ v = v'

theorem Matched.refl (L : Language UInt64) : Matched L L := ⟨Equiv.refl _, fun _ => rfl⟩

theorem Matched.encard_eq (h : Matched L L') (n : ℕ) :
    {words | words.length = n ∧ words ∈ L}.encard =
      {words | words.length = n ∧ words ∈ L'}.encard := by
  obtain ⟨e, he⟩ := h
  have hsymm (words : {words // words ∈ L'}) : (e.symm words).1.length = words.1.length := by
    have hback := he (e.symm words)
    rw [Equiv.apply_symm_apply] at hback
    exact hback.symm
  exact Set.encard_congr {
    toFun := fun words => ⟨(e ⟨words.1, words.2.2⟩).1, (he _).trans words.2.1, (e _).2⟩
    invFun := fun words =>
      ⟨(e.symm ⟨words.1, words.2.2⟩).1, (hsymm _).trans words.2.1, (e.symm _).2⟩
    left_inv := fun _ => by simp
    right_inv := fun _ => by simp }

-- A script of an unambiguous product, taken apart.
noncomputable def mulEquiv (h : Unambiguous L M) :
    {u // u ∈ L} × {v // v ∈ M} ≃ {words // words ∈ L * M} :=
  Equiv.ofBijective
    (fun p => ⟨p.1.1 ++ p.2.1, Language.mem_mul.mpr ⟨p.1.1, p.1.2, p.2.1, p.2.2, rfl⟩⟩) (by
      constructor
      · rintro ⟨⟨u, hu⟩, ⟨v, hv⟩⟩ ⟨⟨u', hu'⟩, ⟨v', hv'⟩⟩ heq
        obtain ⟨rfl, rfl⟩ := h u hu v hv u' hu' v' hv' (congrArg Subtype.val heq)
        rfl
      · rintro ⟨words, hwords⟩
        obtain ⟨u, hu, v, hv, rfl⟩ := Language.mem_mul.mp hwords
        exact ⟨(⟨u, hu⟩, ⟨v, hv⟩), rfl⟩)

theorem mulEquiv_val (h : Unambiguous L M) (p : {u // u ∈ L} × {v // v ∈ M}) :
    (mulEquiv h p).1 = p.1.1 ++ p.2.1 := rfl

theorem Matched.mul (h : Unambiguous L M) (h' : Unambiguous L' M') (hL : Matched L L')
    (hM : Matched M M') : Matched (L * M) (L' * M') := by
  obtain ⟨e, he⟩ := hL
  obtain ⟨f, hf⟩ := hM
  refine ⟨((mulEquiv h).symm.trans (Equiv.prodCongr e f)).trans (mulEquiv h'), fun words => ?_⟩
  obtain ⟨⟨u, v⟩, rfl⟩ := (mulEquiv h).surjective words
  simp [mulEquiv_val, he, hf]

theorem unambiguous_runsIn {draw : Draw Script α} (hdraw : draw.PrefixCode) (results : Set α)
    (M : Language UInt64) : Unambiguous (draw.runsIn results) M := by
  rintro u ⟨a, -, hu⟩ v - u' ⟨b, -, hu'⟩ v' - heq
  rcases List.append_eq_append_iff.mp heq with ⟨more, rfl, rfl⟩ | ⟨more, rfl, rfl⟩
  · simp [hdraw.append_eq hu hu']
  · simp [hdraw.append_eq hu' hu]

theorem unambiguous_runs {draw : Draw Script α} (hdraw : draw.PrefixCode) (a : α)
    (M : Language UInt64) : Unambiguous (draw.runs a) M := by
  rw [← Draw.runsIn_singleton]
  exact unambiguous_runsIn hdraw {a} M

-- What comes behind a draw may be matched by itself.
theorem Matched.runsIn_mul {draw : Draw Script α} (hdraw : draw.PrefixCode) (results : Set α)
    (h : Matched M M') : Matched (draw.runsIn results * M) (draw.runsIn results * M') :=
  Matched.mul (unambiguous_runsIn hdraw results M) (unambiguous_runsIn hdraw results M')
    (Matched.refl _) h

theorem Matched.runs_mul {draw : Draw Script α} (hdraw : draw.PrefixCode) {a b : α}
    (h : Matched (draw.runs a) (draw.runs b)) (h' : Matched M M') :
    Matched (draw.runs a * M) (draw.runs b * M') :=
  Matched.mul (unambiguous_runs hdraw a M) (unambiguous_runs hdraw b M') h h'

-- The words that are rejected, in any number, and those accepted for one result.
def rejections {w : Width} (accept? : BitVec w.bits → Option α) : Language UInt64 :=
  {words | ∀ word ∈ words, accept? (w.read word) = none}

def acceptances {w : Width} (accept? : BitVec w.bits → Option α) (a : α) : Language UInt64 :=
  {words | ∃ word, words = [word] ∧ accept? (w.read word) = some a}

theorem runs_redraw {w : Width} (accept? : BitVec w.bits → Option α) (a : α) :
    (Draw.redraw w accept? : Draw Script α).runs a =
      rejections accept? * acceptances accept? a := by
  ext words
  rw [Draw.mem_runs_redraw, Language.mem_mul]
  constructor
  · rintro ⟨rejected, word, rfl, hrejected, hword⟩
    exact ⟨rejected, hrejected, [word], ⟨word, rfl, hword⟩, rfl⟩
  · rintro ⟨rejected, hrejected, _, ⟨word, rfl, hword⟩, rfl⟩
    exact ⟨rejected, word, rfl, hrejected, hword⟩

theorem unambiguous_acceptances {w : Width} (accept? : BitVec w.bits → Option α) (a : α)
    (L : Language UInt64) : Unambiguous L (acceptances accept? a) := by
  rintro u - _ ⟨word, rfl, -⟩ u' - _ ⟨word', rfl, -⟩ heq
  exact List.append_inj' heq rfl

noncomputable def acceptanceEquiv {w : Width} (accept? : BitVec w.bits → Option α) (a : α) :
    {word // accept? (w.read word) = some a} ≃ {words // words ∈ acceptances accept? a} :=
  Equiv.ofBijective (fun word => ⟨[word.1], word.1, rfl, word.2⟩) (by
    constructor
    · intro word word' heq
      exact Subtype.ext (List.cons.inj (congrArg Subtype.val heq)).1
    · rintro ⟨_, word, rfl, hword⟩
      exact ⟨⟨word, hword⟩, rfl⟩)

theorem acceptanceEquiv_val {w : Width} (accept? : BitVec w.bits → Option α) (a : α)
    (word : {word // accept? (w.read word) = some a}) :
    (acceptanceEquiv accept? a word).1 = [word.1] := rfl

-- Two results of a redrawn word that equally many words give have matching runs, as
-- rejections are the same for both.
theorem matched_redraw {w : Width} {accept? : BitVec w.bits → Option α} {a b : α}
    (e : {word // accept? (w.read word) = some a} ≃ {word // accept? (w.read word) = some b}) :
    Matched ((Draw.redraw w accept? : Draw Script α).runs a)
      ((Draw.redraw w accept? : Draw Script α).runs b) := by
  rw [runs_redraw, runs_redraw]
  apply Matched.mul (unambiguous_acceptances _ _ _) (unambiguous_acceptances _ _ _)
    (Matched.refl _)
  refine ⟨((acceptanceEquiv accept? a).symm.trans e).trans (acceptanceEquiv accept? b),
    fun words => ?_⟩
  obtain ⟨word, rfl⟩ := (acceptanceEquiv accept? a).surjective words
  simp [acceptanceEquiv_val]

end ArithTree.Script
