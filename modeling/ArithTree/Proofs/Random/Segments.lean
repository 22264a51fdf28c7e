import ArithTree.Proofs.Random.InTurn

namespace ArithTree.Draw

variable {α : Type} {draw : Draw Script α} {words : Script} {start stop : ℕ} {a : α}
  {results : List α}

end ArithTree.Draw
