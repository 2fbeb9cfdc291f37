import Stencil.Number.Rounding

namespace Stencil
namespace Binary64

def isDigit (c : Char) : Bool :=
  '0' ≤ c && c ≤ '9'

-- The value of a run of digits.
def digitsValue (cs : List Char) : Nat :=
  cs.foldl (fun n c => 10 * n + (c.toNat - '0'.toNat)) 0

-- Takes a sign off the front; true stands for minus.
def readSign : List Char → Bool × List Char
  | []      => (false, [])
  | c :: cs => if c = '-' then (true, cs) else if c = '+' then (false, cs) else (false, c :: cs)

-- Digits after a point, if a point comes first.
def readFraction : List Char → List Char × List Char
  | []      => ([], [])
  | c :: cs => if c = '.' then (cs.takeWhile isDigit, cs.dropWhile isDigit) else ([], c :: cs)

-- Reads an exponent that takes up all of the characters; there may be none.
def readExponent? : List Char → Option Int
  | []      => some 0
  | c :: cs =>
    let (negative, ds) := readSign cs
    if (c = 'e' || c = 'E') && !ds.isEmpty && ds.all isDigit then
      some (if negative then -digitsValue ds else digitsValue ds)
    else none

def readUnsigned? (negative : Bool) (cs : List Char) : Option Binary64 :=
  let lower := cs.map Char.toLower
  if lower = "inf".toList ∨ lower = "infinity".toList then some (infinity negative)
  else if lower = "nan".toList then some (nan negative)
  else
    let whole := cs.takeWhile isDigit
    let (fraction, rest) := readFraction (cs.dropWhile isDigit)
    if whole.isEmpty && fraction.isEmpty then none
    else (readExponent? rest).map fun e =>
      ofDecimal negative (digitsValue (whole ++ fraction)) (e - fraction.length)

-- The number that the whole text spells, if it spells one.
def read? (cs : List Char) : Option Binary64 :=
  let (negative, rest) := readSign cs
  readUnsigned? negative rest

end Binary64
end Stencil
