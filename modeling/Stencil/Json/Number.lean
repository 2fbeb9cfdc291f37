import Stencil.Json.Basic
import Stencil.Number.Reading

namespace Stencil
namespace Json

-- The spelling of a number, taken apart.
structure NumberText where
  negative : Bool
  whole    : List Char
  fraction : Option (List Char)
  exponent : Option (Bool × List Char)

namespace NumberText

-- Appends digits to a significand as long as it stays below `2 ^ 64`. Also returns the number of
-- digits from the first that did not fit.
def gather (significand : Nat) : List Char → Nat × Nat
  | []      => (significand, 0)
  | c :: cs =>
    let s := 10 * significand + (c.toNat - '0'.toNat)
    if s < twoTo 64 then gather s cs else (significand, cs.length + 1)

-- Multiplies or divides by a power of ten. Powers of ten end at `10 ^ 308`: a larger factor is out
-- of range, and division is repeated.
def scale? (x : Binary64) (e : Int) : Option Binary64 :=
  if e < -308 then
    if x.magnitude = 0 then some x else scale? (x.div (.ofNat (tenTo 308))) (e + 308)
  else if e < 0 then some (x.div (.ofNat (tenTo (-e).toNat)))
  else if 308 < e then
    if x.magnitude = 0 then some x else none
  else
    let y := x.mul (.ofNat (tenTo e.toNat))
    if y.isFinite then some y else none
termination_by (-e).toNat

-- Exponents are kept in 32 bits. One that does not fit makes every number but zero too large, or
-- makes it zero.
def scaleBy? (significand : Nat) (e : Int) (exponent : Option (Bool × List Char)) :
    Option Binary64 :=
  match exponent with
  | none => scale? (.ofNat significand) e
  | some (negative, ds) =>
    let n := Binary64.digitsValue ds
    if n < twoTo 31 then scale? (.ofNat significand) (if negative then e - n else e + n)
    else if significand = 0 ∨ negative then some (.zero false)
    else none

-- An integer keeps its value if it fits; zero with a sign is not an integer.
def integer (negative : Bool) (n : Nat) : Number :=
  if !negative then .int n
  else if n = 0 ∨ twoTo 63 < n then .real (.ofRatio true n 1)
  else .int (-n)

-- The significand is multiplied or divided by one power of ten, so the value may be off by the last
-- binary digit; but it is the same for every spelling of the same significand and exponent.
def value? (t : NumberText) : Option Number :=
  let (s, left) := gather 0 t.whole
  match t.fraction, t.exponent, left with
  | none, none, 0 => some (integer t.negative s)
  | fraction, exponent, left =>
    let digits := fraction.getD []
    let (s, unused) := gather s digits
    let e : Int := left - (digits.length - unused : Nat)
    (scaleBy? s e exponent).map fun x => .real (.ofWord t.negative x.magnitude)

end NumberText
end Json
end Stencil
