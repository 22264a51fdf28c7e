import ArithTree.Value

namespace ArithTree

inductive UnaryOperator
  | negate
  deriving DecidableEq

inductive BinaryOperator
  | add
  | subtract
  | multiply
  deriving DecidableEq

-- An arithmetic expression as a tree.
inductive Expr
  | leaf (value : Value)
  | unary (operator : UnaryOperator) (child : Expr)
  | binary (operator : BinaryOperator) (left right : Expr)
  deriving DecidableEq

namespace UnaryOperator

def all : List UnaryOperator := [negate]

def tag : UnaryOperator → String
  | negate => "neg"

end UnaryOperator

namespace BinaryOperator

def all : List BinaryOperator := [add, subtract, multiply]

def tag : BinaryOperator → String
  | add => "add"
  | subtract => "sub"
  | multiply => "mult"

end BinaryOperator

namespace Expr

-- The length of the longest path to a leaf.
def depth : Expr → Nat
  | leaf _ => 0
  | unary _ child => child.depth + 1
  | binary _ left right => max left.depth right.depth + 1

def leafCount : Expr → Nat
  | leaf _ => 1
  | unary _ child => child.leafCount
  | binary _ left right => left.leafCount + right.leafCount

def binaryCount : Expr → Nat
  | leaf _ => 0
  | unary _ child => child.binaryCount
  | binary _ left right => left.binaryCount + right.binaryCount + 1

-- A unary operator shares the line of its operand, so only leaves and binary operators
-- take a line.
def lineCount (e : Expr) : Nat := e.leafCount + e.binaryCount

-- Smaller trees to try in place of a failing one: the children, in order.
def shrink : Expr → List Expr
  | leaf _ => []
  | unary _ child => [child]
  | binary _ left right => [left, right]

-- The same operators in the same places, and numerically equal leaves.
def numEq : Expr → Expr → Bool
  | leaf v, leaf w => v.numEq w
  | unary op child, unary op' child' => op == op' && child.numEq child'
  | binary op left right, binary op' left' right' =>
    op == op' && left.numEq left' && right.numEq right'
  | _, _ => false

end Expr

-- The counts that describe the shape of a tree.
structure Shape where
  depth : Nat
  leaves : Nat
  binaries : Nat
  lines : Nat
  deriving DecidableEq

def Expr.shape (e : Expr) : Shape where
  depth := e.depth
  leaves := e.leafCount
  binaries := e.binaryCount
  lines := e.lineCount

end ArithTree
