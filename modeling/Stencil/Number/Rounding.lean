import Stencil.Number.Binary64

namespace Stencil
namespace Binary64

-- The quotient `num / den` rounded to the nearest integer, a half going to the even one.
def nearestQuotient (num den : Nat) : Nat :=
  let q := num / den
  let r := num % den
  if 2 * r < den then q
  else if den < 2 * r then q + 1
  else q + q % 2

-- The value `num / den` in units of two to the power of `e`, as a numerator and a denominator.
def scaled (num den : Nat) (e : Int) : Nat × Nat :=
  (num * twoTo (-e).toNat, den * twoTo e.toNat)

-- The exponent of the unit in which `num / den` has 53 binary digits before the point, or the least
-- exponent of the format if that is larger.
def unitExponent (num den : Nat) : Int :=
  let e : Int := num.log2 - den.log2 - 53
  let (n, d) := scaled num den e
  let e := if n / d < twoTo 53 then e else e + 1
  if e < -1074 then -1074 else e

-- The number nearest to `num / den`, with the given sign; of two equally near ones it is the one
-- with the even significand. Values too large for the format become infinite.
def ofRatio (negative : Bool) (num den : Nat) : Binary64 :=
  if num = 0 then zero negative
  else
    let e := unitExponent num den
    let (n, d) := scaled num den e
    -- a significand rounded up to `2 ^ 53` carries into the exponent by itself
    let magnitude := (e + 1074).toNat * twoTo 52 + nearestQuotient n d
    if magnitude < infiniteMagnitude then ofWord negative magnitude else infinity negative

def ofNat (n : Nat) : Binary64 :=
  ofRatio false n 1

def ofInt (i : Int) : Binary64 :=
  ofRatio (i < 0) i.natAbs 1

-- The number nearest to `digits * 10 ^ exponent`. The cases where a power of two shows that the
-- value is out of range are settled without computing the power of ten.
def ofDecimal (negative : Bool) (digits : Nat) (exponent : Int) : Binary64 :=
  if digits = 0 then zero negative
  else if 0 < exponent ∧ 1024 ≤ digits.log2 + 3 * exponent then infinity negative
  else if exponent < 0 ∧ digits.log2 + 1 + 3 * exponent < -1076 then zero negative
  else ofRatio negative (digits * tenTo exponent.toNat) (tenTo (-exponent).toNat)

-- The product of two finite numbers, rounded.
def mul (x y : Binary64) : Binary64 :=
  let (a, b) := x.ratio
  let (c, d) := y.ratio
  ofRatio (x.isNegative != y.isNegative) (a * c) (b * d)

-- The quotient of two finite numbers, rounded; the divisor is not zero.
def div (x y : Binary64) : Binary64 :=
  let (a, b) := x.ratio
  let (c, d) := y.ratio
  ofRatio (x.isNegative != y.isNegative) (a * d) (b * c)

end Binary64
end Stencil
