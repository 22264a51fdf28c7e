import ArithTree.Expr.Arbitrary
import ArithTree.Expr.Outline
import ArithTree.Expr.Reader
import ArithTree.Main
import ArithTree.Session
import ArithTree.Proofs.CommandLine.Plan
import ArithTree.Proofs.Generator.Candidates
import ArithTree.Proofs.Generator.Counts
import ArithTree.Proofs.Generator.Fairness
import ArithTree.Proofs.Generator.Program
import ArithTree.Proofs.Generator.Range
import ArithTree.Proofs.Generator.SelfDelimiting
import ArithTree.Proofs.Printer.Equality
import ArithTree.Proofs.Printer.Faults
import ArithTree.Proofs.Printer.ReadBack
import ArithTree.Proofs.Printer.Truncation
import ArithTree.Proofs.Value.Lossless
import ArithTree.Proofs.Decimal.Coarsest
import ArithTree.Proofs.Decimal.Shortest
import ArithTree.Proofs.Value.Shortest
import ArithTree.Proofs.Printer.WholeLines
import ArithTree.Proofs.Printer.Shift
import ArithTree.Proofs.Printer.LineHeads
import ArithTree.Proofs.Printer.Operands
import ArithTree.Proofs.Generator.PlainReals
import ArithTree.Proofs.Shrinking
import ArithTree.Proofs.Generator.TestTrees
import ArithTree.Proofs.Generator.UniformDraws
import ArithTree.Proofs.Outline.Indentation
import ArithTree.Proofs.Outline.Readability
