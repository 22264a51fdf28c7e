import ArithTree.Expr.Generator
import ArithTree.Proofs.Random.Runs

namespace ArithTree

namespace Draw

-- A draw that can be made from every source.
abbrev FromAny (α : Type) := (σ : Type) → [Source σ] → Draw σ α

-- A property that results without a draw and redrawn words have, and that draws in a row keep.
-- The draws of the generator are made of nothing else.
structure Compositional (P : ∀ α, FromAny α → Prop) : Prop where
  pure {α : Type} (a : α) : P α fun _ _ => pure a
  redraw {α : Type} (w : Width) (accept? : BitVec w.bits → Option α) :
    P α fun _ _ => redraw w accept?
  bind {α β : Type} {draw : FromAny α} {next : α → FromAny β} (hdraw : P α draw)
    (hnext : ∀ a, P β (next a)) : P β fun σ _ => draw σ >>= fun a => next a σ

theorem compositional_prefixCode : Compositional fun _ draw => PrefixCode (draw Script) where
  pure := prefixCode_pure
  redraw := prefixCode_redraw
  bind := prefixCode_bind

end Draw

open Draw

variable {P : ∀ α, FromAny α → Prop}

theorem Value.generate_of_compositional (hP : Compositional P) : P _ fun _ _ => generate := by
  apply hP.bind (hP.redraw _ _)
  intro coin
  by_cases hcoin : coin.toNat < 2 ^ 63
  · simp only [hcoin, if_true]
    exact hP.bind (hP.redraw _ _) fun _ => hP.pure _
  · simp only [hcoin, if_false]
    exact hP.bind (hP.redraw _ _) fun _ => hP.pure _

theorem BinaryOperator.generate_of_compositional (hP : Compositional P) :
    P _ fun _ _ => generate :=
  hP.bind (hP.redraw _ _) fun _ => hP.pure _

theorem Expr.generate_of_compositional (hP : Compositional P) (depth : ℕ) :
    P _ fun _ _ => generate depth := by
  have hleaf : P _ fun _ _ => return leaf (← Value.generate) :=
    hP.bind (Value.generate_of_compositional hP) fun _ => hP.pure _
  induction depth with
  | zero => exact hP.bind (hP.redraw _ _) fun _ => hleaf
  | succ depth ih =>
    apply hP.bind (hP.redraw _ _)
    rintro (_ | _ | choice)
    · exact hleaf
    · exact hP.bind ih fun _ => hP.pure _
    · exact hP.bind (BinaryOperator.generate_of_compositional hP) fun _ =>
        hP.bind ih fun _ => hP.bind ih fun _ => hP.pure _

theorem Value.prefixCode_generate : PrefixCode (generate : Draw Script Value) :=
  generate_of_compositional compositional_prefixCode

theorem BinaryOperator.prefixCode_generate : PrefixCode (generate : Draw Script BinaryOperator) :=
  generate_of_compositional compositional_prefixCode

theorem Expr.prefixCode_generate (depth : ℕ) : PrefixCode (generate depth : Draw Script Expr) :=
  generate_of_compositional compositional_prefixCode depth

end ArithTree
