import ArithTree.Decimal.Nearest

namespace ArithTree

namespace Decimal

-- One digit or more and nothing else.
def readNat? (cs : List Char) : Option Nat :=
  if cs ≠ [] ∧ cs.all Char.isDigit then some (Nat.ofDigitChars 10 cs 0) else none

def readInt? : List Char → Option Int
  | '-' :: cs => (readNat? cs).map fun n => -(n : Int)
  | cs => (readNat? cs).map fun n => (n : Int)

-- The exponent behind the digits, zero if there is none.
def readExponent? : List Char → Option Int
  | [] => some 0
  | 'e' :: cs => readInt? cs
  | _ => none

-- Reads a magnitude: digits, then perhaps a point with more digits, then perhaps
-- an exponent. The digits behind the point lower the exponent.
def read? (cs : List Char) : Option Decimal :=
  let whole := cs.takeWhile Char.isDigit
  match cs.dropWhile Char.isDigit with
  | '.' :: rest => do
    let fraction := rest.takeWhile Char.isDigit
    let exponent ← readExponent? (rest.dropWhile Char.isDigit)
    if whole = [] ∨ fraction = [] then none
    else some ⟨Nat.ofDigitChars 10 (whole ++ fraction) 0, exponent - fraction.length⟩
  | rest => do
    let exponent ← readExponent? rest
    if whole = [] then none else some ⟨Nat.ofDigitChars 10 whole 0, exponent⟩

end Decimal

namespace Binary64

def readMagnitude? (negative : Bool) (cs : List Char) : Option Binary64 :=
  if cs = ['i', 'n', 'f'] then some (infinity negative)
  else (Decimal.read? cs).map (Decimal.nearest negative)

-- Reads the text of a number as the nearest one.
def read? : List Char → Option Binary64
  | ['N', 'a', 'N'] => some nan
  | '-' :: cs => readMagnitude? true cs
  | cs => readMagnitude? false cs

end Binary64

end ArithTree
