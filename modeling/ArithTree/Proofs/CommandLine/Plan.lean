import ArithTree.Proofs.CommandLine.Arguments
import ArithTree.Proofs.Generator.Nodes

namespace ArithTree.CommandLine

variable {argument : String} {arguments : List String} {depth n : ℕ}

namespace Request

end Request

namespace Plan

end Plan

-- Help comes before the check of the depth, a sign is no option, and the second "--" is an
-- argument like any other.
example : Plan.ofArguments ["65", "help"] = .help := by decide
example : Plan.ofArguments ["--", "+7"] = .generate 7 := by decide
example : Plan.ofArguments ["--help", "--", "--"] =
    .misuse (.invalid "--" .invalidDigit) := by decide

end ArithTree.CommandLine
