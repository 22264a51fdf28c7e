import ArithTree.Expr.Basic
import ArithTree.Sink

namespace ArithTree

-- Why printing stops early.
inductive PrintFault
  | widthTooLarge
  | indentOverflow
  | write (error : WriteError)
  deriving DecidableEq

namespace PrintFault

def message : PrintFault → String
  | widthTooLarge => "Formatting argument out of range"
  | indentOverflow => "attempt to add with overflow"
  | write error => "failed to write expression: " ++ error.message

end PrintFault

-- Printing extends a sink, and what was written before a fault stays written.
abbrev Printing := ExceptT PrintFault (StateM Sink)

namespace Printing

-- The widest field that a padded piece may have.
def maxWidth : Nat := 65535

-- Indents are 64-bit words.
def indentLimit : Nat := 2 ^ 64

def emit (piece : String) : Printing Unit :=
  ExceptT.mk fun sink =>
    match sink.write piece with
    | (.ok (), sink) => (.ok (), sink)
    | (.error error, sink) => (.error (.write error), sink)

-- Writes a piece behind the given number of spaces. A width out of range writes nothing.
def emitPadded (spacing : Nat) (piece : String) : Printing Unit :=
  if spacing ≤ maxWidth then emit (String.ofList (List.replicate spacing ' ') ++ piece)
  else throw .widthTooLarge

-- The indent of the children.
def deeper (indent : Nat) : Printing Nat :=
  if indent + 1 < indentLimit then pure (indent + 1) else throw .indentOverflow

-- Runs a printing action on a sink.
def runOn {α : Type} (action : Printing α) (sink : Sink) : Except PrintFault α × Sink :=
  action.run.run sink

variable {α β : Type}

@[simp]
theorem runOn_pure (a : α) (sink : Sink) : (pure a : Printing α).runOn sink = (.ok a, sink) := rfl

@[simp]
theorem runOn_throw (fault : PrintFault) (sink : Sink) :
    (throw fault : Printing α).runOn sink = (.error fault, sink) := rfl

-- After a fault nothing more is written.
theorem runOn_bind (action : Printing α) (next : α → Printing β) (sink : Sink) :
    (action >>= next).runOn sink =
      match action.runOn sink with
      | (.ok a, sink) => (next a).runOn sink
      | (.error fault, sink) => (.error fault, sink) := by
  change (bind action.run (ExceptT.bindCont next)).run sink = _
  simp only [runOn, StateT.run_bind]
  rcases StateT.run action.run sink with ⟨_ | a, sink⟩ <;> rfl

end Printing

namespace Expr

open Printing

-- Writes a tree in prefix order, one line for each leaf and each binary operator. A node
-- that starts a line has `indent` spaces before it, and one that continues a line has one.
-- The children of a binary operator each start a line, one space deeper.
def print : Expr → (indent : Nat) → (newline : Bool) → Printing Unit
  | leaf value, indent, newline =>
    emitPadded (if newline then indent else 1) (value.text ++ "\n")
  | unary operator child, indent, newline => do
    emitPadded (if newline then indent else 1) operator.tag
    child.print (← deeper indent) false
  | binary operator left right, indent, newline => do
    emitPadded (if newline then indent else 1) (operator.tag ++ "\n")
    left.print (← deeper indent) true
    right.print (← deeper indent) true

-- The line that comes before a tree in a program.
def header : String := "print"

-- Writes the header and then the whole tree from the left margin.
def printProgram (e : Expr) : Printing Unit := do
  emit (header ++ "\n")
  e.print 0 true

-- The text of a tree from the left margin.
def text (e : Expr) : String := ((e.print 0 true).runOn .unlimited).2.text

end Expr

end ArithTree
