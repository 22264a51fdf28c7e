import ArithTree.Proofs.Generator.Range
import ArithTree.Proofs.Random.Sources

namespace ArithTree

open Draw

-- Where one draw ends in a script, the next one begins, as each of them is a prefix code.
theorem Draw.compositional_scripted :
    Compositional fun _ draw => PrefixCode (draw Script) ∧ Scripted draw where
  pure a := ⟨prefixCode_pure a, scripted_pure a⟩
  redraw w accept? := ⟨prefixCode_redraw w accept?, scripted_redraw w accept?⟩
  bind hdraw hnext := ⟨prefixCode_bind hdraw.1 fun a => (hnext a).1,
    scripted_bind hdraw.1 hdraw.2 fun a => (hnext a).2⟩

namespace Expr

variable {σ : Type} [Source σ] {depth : ℕ} {s s' : σ} {t : Expr}

-- The range of the generator is the same for all sources.
theorem inRange_of_runOn (h : (generate depth).runOn s = (some t, s')) : t.InRange depth := by
  obtain ⟨-, hscripted⟩ := generate_of_compositional compositional_scripted depth
  obtain ⟨words, hwords⟩ := hscripted σ s s' t h
  exact inRange_of_mem_runs hwords

-- The trees that the generator gives at a depth, each from some source.
def Generated (depth : ℕ) (t : Expr) : Prop :=
  ∃ (σ : Type) (_ : Source σ) (s s' : σ), (generate depth).runOn s = (some t, s')

theorem Generated.inRange (h : Generated depth t) : t.InRange depth := by
  obtain ⟨σ, _, s, s', hrun⟩ := h
  exact inRange_of_runOn hrun

theorem InRange.generated (h : t.InRange depth) (hdepth : depth < 2 ^ 32) :
    Generated depth t := by
  obtain ⟨words, hwords⟩ := exists_run_of_inRange hdepth h
  exact ⟨Script, inferInstance, words, [], hwords⟩

end Expr

end ArithTree
