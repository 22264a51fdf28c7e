import ArithTree.Decimal.Numeral

namespace ArithTree

-- What a leaf holds: a 64-bit integer or a double-precision number.
inductive Value
  | int (n : Int64)
  | real (x : Binary64)
  deriving DecidableEq

namespace Value

def numeral : Value → List Char
  | .int n => Decimal.ofInt n.toInt
  | .real x => x.numeral

def text (v : Value) : String := String.ofList v.numeral

theorem toList_text (v : Value) : v.text.toList = v.numeral := String.toList_ofList

-- Numeric equality, within one kind only: no integer equals a real.
def numEq : Value → Value → Bool
  | .int m, .int n => m == n
  | .real x, .real y => x.numEq y
  | _, _ => false

end Value

end ArithTree
