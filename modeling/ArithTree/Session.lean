import ArithTree.Depth
import ArithTree.Expr.Generator
import ArithTree.Expr.Printer

namespace ArithTree

-- A stack of trees with its top first, and the source that new trees come from.
structure Session (σ : Type) where
  stack : List Expr
  source : σ

inductive Step
  | push (value : Value)
  | generate (depth : Nat)
  | generateLeaf
  | check (depth : Nat)
  | negate
  | combine (operator : BinaryOperator)
  | duplicate
  | drop
  | swap
  | compare
  | shrink (index : Nat)
  | shape
  | text
  | print (indent : Nat) (newline : Bool)
  | printProgram

-- What a step tells besides its effect on the stack.
inductive Reply
  | done
  | underflow
  | exhausted
  | checked (result : Except DepthTooLarge Nat)
  | compared (equal : Bool)
  | candidates (count : Nat)
  | shape (shape : Shape)
  | text (text : String)
  | printed (outcome : Except PrintFault Unit) (output : String)

namespace Session

variable {σ : Type} [Source σ]

def start (source : σ) : Session σ := ⟨[], source⟩

-- Pushes what is drawn. Words drawn for nothing are gone all the same.
def pushDrawn (draw : Draw σ Expr) (s : Session σ) : Reply × Session σ :=
  match draw.runOn s.source with
  | (some e, source) => (.done, ⟨e :: s.stack, source⟩)
  | (none, source) => (.exhausted, { s with source })

def printed (action : Printing Unit) : Reply :=
  let (outcome, sink) := action.runOn .unlimited
  .printed outcome sink.text

-- A step that needs more trees than there are changes nothing.
def step (s : Session σ) : Step → Reply × Session σ
  | .push value => (.done, { s with stack := .leaf value :: s.stack })
  | .generate depth => s.pushDrawn (Expr.generate depth)
  | .generateLeaf => s.pushDrawn (Expr.leaf <$> Value.generate)
  | .check depth => (.checked (checkDepth depth), s)
  | .negate =>
    match s.stack with
    | e :: rest => (.done, { s with stack := .unary .negate e :: rest })
    | _ => (.underflow, s)
  | .combine operator =>
    match s.stack with
    | right :: left :: rest => (.done, { s with stack := .binary operator left right :: rest })
    | _ => (.underflow, s)
  | .duplicate =>
    match s.stack with
    | e :: rest => (.done, { s with stack := e :: e :: rest })
    | _ => (.underflow, s)
  | .drop =>
    match s.stack with
    | _ :: rest => (.done, { s with stack := rest })
    | _ => (.underflow, s)
  | .swap =>
    match s.stack with
    | e :: e' :: rest => (.done, { s with stack := e' :: e :: rest })
    | _ => (.underflow, s)
  | .compare =>
    match s.stack with
    | right :: left :: _ => (.compared (left.numEq right), s)
    | _ => (.underflow, s)
  | .shrink index =>
    match s.stack with
    | e :: rest =>
      (.candidates e.shrink.length, { s with stack := e.shrink.getD index e :: rest })
    | _ => (.underflow, s)
  | .shape =>
    match s.stack with
    | e :: _ => (.shape e.shape, s)
    | _ => (.underflow, s)
  | .text =>
    match s.stack with
    | e :: _ => (.text e.text, s)
    | _ => (.underflow, s)
  | .print indent newline =>
    match s.stack with
    | e :: _ => (printed (e.print indent newline), s)
    | _ => (.underflow, s)
  | .printProgram =>
    match s.stack with
    | e :: _ => (printed e.printProgram, s)
    | _ => (.underflow, s)

end Session

end ArithTree
