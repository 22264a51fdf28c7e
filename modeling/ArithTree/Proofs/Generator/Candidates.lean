import ArithTree.Proofs.Generator.Nodes
import ArithTree.Proofs.Random.Segments

namespace ArithTree.Expr

open Draw

variable {depth count : ℕ} {t : Expr} {words : Script}

end ArithTree.Expr
