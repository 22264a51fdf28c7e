import ArithTree.Proofs.Random.Bounded

namespace ArithTree.Draw

variable {α β : Type}

-- Whatever a draw gives from a source of any kind, it gives from a script as well. A fact
-- about all scripts is then one about all sources.
def Scripted (draw : (σ : Type) → [Source σ] → Draw σ α) : Prop :=
  ∀ (σ : Type) [Source σ] (s s' : σ) (a : α), (draw σ).runOn s = (some a, s') →
    ∃ words : Script, words ∈ (draw Script).runs a

theorem scripted_pure (a : α) : Scripted fun _ _ => pure a := by
  intro σ _ s s' b h
  rw [runOn_pure, Prod.mk.injEq, Option.some.injEq] at h
  exact ⟨[], mem_runs_pure.mpr ⟨rfl, h.1⟩⟩

theorem scripted_bind {draw : (σ : Type) → [Source σ] → Draw σ α}
    {next : α → (σ : Type) → [Source σ] → Draw σ β} (hcode : PrefixCode (draw Script))
    (hdraw : Scripted draw) (hnext : ∀ a, Scripted (next a)) :
    Scripted fun σ _ => draw σ >>= fun a => next a σ := by
  intro σ _ s s' b h
  rw [runOn_bind] at h
  rcases hfirst : (draw σ).runOn s with ⟨_ | a, middle⟩
  · simp [hfirst] at h
  · simp only [hfirst] at h
    obtain ⟨first, hfirst⟩ := hdraw σ s middle a hfirst
    obtain ⟨second, hsecond⟩ := hnext a σ middle s' b h
    exact ⟨first ++ second, (mem_runs_bind hcode).mpr ⟨a, Language.append_mem_mul hfirst hsecond⟩⟩

-- The word that a source draws last is the one that is accepted.
theorem exists_accepted_of_redrawFrom {σ : Type} [Source σ] {w : Width}
    {accept? : BitVec w.bits → Option α} {s s' : σ} {a : α}
    (h : redrawFrom w accept? s = (some a, s')) : ∃ v, accept? v = some a := by
  fun_induction redrawFrom w accept? s with
  | case1 => cases h
  | case2 s v rest hnext b haccept =>
    exact ⟨v, haccept.trans (Prod.mk.inj h).1⟩
  | case3 s v rest hnext hreject ih => exact ih h

theorem scripted_redraw (w : Width) (accept? : BitVec w.bits → Option α) :
    Scripted fun _ _ => redraw w accept? := by
  intro σ _ s s' a h
  obtain ⟨v, hv⟩ := exists_accepted_of_redrawFrom h
  obtain ⟨word, rfl⟩ := w.surjective_read v
  exact ⟨[word], mem_runs_redraw.mpr ⟨[], word, rfl, by simp, hv⟩⟩

end ArithTree.Draw
