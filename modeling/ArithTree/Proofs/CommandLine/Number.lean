import ArithTree.CommandLine
import Mathlib.Data.Nat.Notation

namespace ArithTree.CommandLine

end ArithTree.CommandLine
