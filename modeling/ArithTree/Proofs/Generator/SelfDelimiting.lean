import ArithTree.Proofs.Generator.Nodes
import ArithTree.Proofs.Random.InTurn

namespace ArithTree

open Draw

theorem Draw.compositional_usesUp : Compositional fun _ draw => UsesUp (draw Script) where
  pure := usesUp_pure
  redraw := usesUp_redraw
  bind := usesUp_bind

namespace Expr

-- Trees and values are read from a script as the words of a prefix code: no run looks behind
-- the words that it takes, none ends before them, and one tree after another reads one word of
-- the code after another.
theorem selfDelimiting_and_repeatsInTurn_generate :
    (∀ depth : ℕ, SelfDelimiting (generate depth : Draw Script Expr) ∧
      RepeatsInTurn (generate depth : Draw Script Expr)) ∧
    SelfDelimiting (Value.generate : Draw Script Value) ∧
      RepeatsInTurn (Value.generate : Draw Script Value) := by
  have htree (depth : ℕ) : SelfDelimiting (generate depth : Draw Script Expr) :=
    (prefixCode_generate depth).selfDelimiting
      (generate_of_compositional compositional_usesUp depth)
  have hvalue : SelfDelimiting (Value.generate : Draw Script Value) :=
    Value.prefixCode_generate.selfDelimiting
      (Value.generate_of_compositional compositional_usesUp)
  exact ⟨fun depth => ⟨htree depth, (htree depth).repeatsInTurn⟩, hvalue, hvalue.repeatsInTurn⟩

-- The negation of one half. The second word of its leaf is redrawn, as `2 ^ -53` has an exponent.
theorem takes_negated_half :
    let words : Script := [2147483648, 0, 9223372036854775808, 2048, 9223372036854775808, 7]
    let t := unary .negate (leaf (.real ⟨0x3fe0000000000000⟩))
    (generate 1).Takes words t 5 ∧
      (generate 1).Takes (words.take 5 ++ [1, 2, 3]) t 5 ∧
      (generate 1 : Draw Script Expr).runOn (words.take 4) = (none, []) := by
  intro words t
  have htakes : (generate 1).Takes words t 5 := ⟨by decide, by decide +kernel⟩
  obtain ⟨hdelimiting, -⟩ := selfDelimiting_and_repeatsInTurn_generate.1 1
  exact ⟨htakes, hdelimiting.takes_of_take_eq htakes rfl,
    hdelimiting.usesUp_take htakes (by decide)⟩

end Expr

end ArithTree
