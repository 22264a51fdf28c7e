import ArithTree.Proofs.CommandLine.Number
import Mathlib.Data.List.TakeWhile

namespace ArithTree.CommandLine

variable {helpSeen options : Bool} {depth? : Option ℕ} {argument : String}
  {arguments rest : List String} {request : Request}

namespace Request

end Request

end ArithTree.CommandLine
