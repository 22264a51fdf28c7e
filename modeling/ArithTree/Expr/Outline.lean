import ArithTree.Expr.Basic

namespace ArithTree

-- The name of an operator's constructor in an outline.
def UnaryOperator.name : UnaryOperator → String
  | negate => "Negate"

def BinaryOperator.name : BinaryOperator → String
  | add => "Add"
  | subtract => "Subtract"
  | multiply => "Multiply"

-- The name of a value's kind in an outline.
def Value.kind : Value → String
  | int _ => "Int"
  | real _ => "Real"

namespace Expr

-- An outline shows every constructor with its fields in parentheses. This one is a
-- single line.
def outline : Expr → String
  | leaf value => "Leaf(" ++ value.kind ++ "(" ++ value.text ++ "))"
  | unary operator child => "Unary(" ++ operator.name ++ ", " ++ child.outline ++ ")"
  | binary operator left right =>
    "Binary(" ++ operator.name ++ ", " ++ left.outline ++ ", " ++ right.outline ++ ")"

-- The lines of an outline with one field to a line, each with the number of parentheses
-- open around it. The text `tail` follows the last line, and a comma follows every field.
def outlineLines : Expr → (level : Nat) → (tail : String) → List (Nat × String)
  | leaf value, level, tail =>
    [(level, "Leaf("), (level + 1, value.kind ++ "("), (level + 2, value.text ++ ","),
      (level + 1, "),"), (level, ")" ++ tail)]
  | unary operator child, level, tail =>
    (level, "Unary(") :: (level + 1, operator.name ++ ",") ::
      (child.outlineLines (level + 1) "," ++ [(level, ")" ++ tail)])
  | binary operator left right, level, tail =>
    (level, "Binary(") :: (level + 1, operator.name ++ ",") ::
      (left.outlineLines (level + 1) "," ++
        (right.outlineLines (level + 1) "," ++ [(level, ")" ++ tail)]))

-- Four spaces for each open parenthesis.
def outlineLine : Nat × String → String
  | (level, text) => String.ofList (List.replicate (4 * level) ' ') ++ text

def outlinePretty (e : Expr) : String :=
  String.intercalate "\n" ((e.outlineLines 0 "").map outlineLine)

end Expr

end ArithTree
