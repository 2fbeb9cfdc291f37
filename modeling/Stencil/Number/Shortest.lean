import Stencil.Number.Binary64

namespace Stencil

-- The value `digits * 10 ^ exponent`.
@[ext]
structure Decimal where
  digits   : Nat
  exponent : Int
  deriving DecidableEq, Inhabited

-- What becomes of a number halfway between two decimals.
inductive Decimal.Tie
  | up
  | even
  deriving DecidableEq, Inhabited

namespace Binary64

-- The decimals that round to a positive number: those between `low` and `high`, over the
-- denominator `den`, where the two ends count if `closed`. The number itself is `mid`.
structure Interval where
  low    : Nat
  mid    : Nat
  high   : Nat
  den    : Nat
  closed : Bool

-- Half the distance to the next lower number, in quarters of the last binary digit. Below a power
-- of two the numbers lie twice as close.
def below (x : Binary64) : Nat :=
  if x.significand = twoTo 52 ∧ -1074 < x.exponent then 1 else 2

def interval (x : Binary64) : Interval :=
  let m := x.significand
  let s := twoTo x.exponent.toNat
  ⟨(4 * m - x.below) * s, 4 * m * s, (4 * m + 2) * s, 4 * twoTo (-x.exponent).toNat, m % 2 = 0⟩

-- The multiple of `10 ^ k` in the interval that is nearest to the number, if there is one. Only the
-- two multiples around the number have to be tried.
def Interval.onGrid? (i : Interval) (tie : Decimal.Tie) (k : Int) : Option Nat :=
  let up := tenTo (-k).toNat
  let unit := i.den * tenTo k.toNat
  let c := i.mid * up / unit
  let r := i.mid * up % unit
  let lower := if i.closed then i.low * up ≤ c * unit else i.low * up < c * unit
  let upper := if i.closed then (c + 1) * unit ≤ i.high * up else (c + 1) * unit < i.high * up
  if lower ∧ upper then
    if 2 * r < unit ∨ (2 * r = unit ∧ tie = .even ∧ c % 2 = 0) then some c else some (c + 1)
  else if lower then some c
  else if upper then some (c + 1)
  else none

-- Tries finer and finer grids, from `10 ^ k` downwards.
def Interval.coarsest (i : Interval) (tie : Decimal.Tie) (k : Int) : Nat → Decimal
  | 0     => ⟨i.mid * tenTo (-k).toNat / (i.den * tenTo k.toNat), k⟩
  | n + 1 =>
    match i.onGrid? tie k with
    | some c => ⟨c, k⟩
    | none   => i.coarsest tie (k - 1) n

-- The shortest decimal of the absolute value of a finite number. The first grid tried is coarser
-- than the number, and seventeen digits are always enough.
def shortest (x : Binary64) (tie : Decimal.Tie) : Decimal :=
  if x.significand = 0 then ⟨0, 0⟩
  else
    let top := (x.significand.log2 + 1 + x.exponent) * 30103 / 100000 + 1
    x.interval.coarsest tie top 20

end Binary64
end Stencil
