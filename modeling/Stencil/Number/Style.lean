import Stencil.Number.Shortest

namespace Stencil

-- Positional writing is used from `10 ^ least` up to, but not including, `10 ^ most`, where such a
-- bound is given; beyond it an exponent is written, after `plus` if it is positive. A value without
-- a fraction is followed by `whole`.
structure NumberStyle where
  tie      : Decimal.Tie
  least    : Option Int
  most     : Option Int
  whole    : String
  plus     : String
  nan      : String
  infinity : (negative : Bool) → String

namespace NumberStyle

-- How a number is passed to text on its own: all digits, however many.
def plain : NumberStyle where
  tie      := .up
  least    := none
  most     := none
  whole    := ""
  plus     := ""
  nan      := "NaN"
  infinity negative := if negative then "-inf" else "inf"

-- How a number is shown in rendered text and in code.
def code : NumberStyle where
  tie      := .up
  least    := some (-6)
  most     := some 21
  whole    := ""
  plus     := ""
  nan      := "NaN"
  infinity negative := if negative then "-Infinity" else "Infinity"

-- How a number is written in JSON output; values without a JSON number become `null`.
def json : NumberStyle where
  tie      := .even
  least    := some (-5)
  most     := some 16
  whole    := ".0"
  plus     := "+"
  nan      := "null"
  infinity _ := "null"

end NumberStyle

namespace Decimal

def digitChars (d : Decimal) : List Char :=
  Nat.toDigits 10 d.digits

-- The power of ten of the first digit.
def leading (d : Decimal) : Int :=
  (d.digitChars.length : Int) - 1 + d.exponent

-- Positional writing; `whole` follows a value without a fraction.
def positional (d : Decimal) (whole : String) : String :=
  let ds := d.digitChars
  let n := (ds.length : Int) + d.exponent
  if 0 ≤ d.exponent then
    String.ofList (ds ++ List.replicate d.exponent.toNat '0') ++ whole
  else if 0 < n then
    String.ofList (ds.take n.toNat ++ '.' :: ds.drop n.toNat)
  else
    String.ofList ('0' :: '.' :: List.replicate (-n).toNat '0' ++ ds)

-- One digit before the point, and the power of ten after an `e`.
def scientific (d : Decimal) (plus : String) : String :=
  let mantissa := match d.digitChars with
    | c :: r :: rs => c :: '.' :: r :: rs
    | ds           => ds
  String.ofList mantissa ++ "e" ++ (if 0 < d.leading then plus else "") ++ toString d.leading

end Decimal

def NumberStyle.isPositional (style : NumberStyle) (d : Decimal) : Bool :=
  d.digits = 0 || (style.least.all (· ≤ d.leading) && style.most.all (d.leading < ·))

namespace Binary64

-- The text of a number in a style.
def render (style : NumberStyle) (x : Binary64) : String :=
  if x.isNaN then style.nan
  else if x.isInfinite then style.infinity x.isNegative
  else
    let d := x.shortest style.tie
    let text := if style.isPositional d then d.positional style.whole else d.scientific style.plus
    if x.isNegative then "-" ++ text else text

end Binary64
end Stencil
