namespace Stencil

-- Two to the power of `n`.
def twoTo (n : Nat) : Nat :=
  Nat.pow 2 n

-- Ten to the power of `n`.
def tenTo (n : Nat) : Nat :=
  Nat.pow 10 n

-- A double-precision number: a sign, eleven bits of exponent and 52 bits of fraction. All about it
-- is computed on natural numbers.
@[ext]
structure Binary64 where
  bits : UInt64
  deriving DecidableEq, Inhabited

namespace Binary64

def word (x : Binary64) : Nat :=
  x.bits.toNat

def ofWord (negative : Bool) (magnitude : Nat) : Binary64 :=
  ⟨UInt64.ofNat (if negative then twoTo 63 + magnitude else magnitude)⟩

-- The magnitude of the infinities: numbers lie below it and NaNs above.
def infiniteMagnitude : Nat :=
  2047 * twoTo 52

def isNegative (x : Binary64) : Bool :=
  twoTo 63 ≤ x.word

-- The word without its sign. Among numbers it grows with the absolute value.
def magnitude (x : Binary64) : Nat :=
  x.word % twoTo 63

def isNaN (x : Binary64) : Bool :=
  infiniteMagnitude < x.magnitude

def isInfinite (x : Binary64) : Bool :=
  x.magnitude = infiniteMagnitude

def isFinite (x : Binary64) : Bool :=
  x.magnitude < infiniteMagnitude

def zero (negative : Bool) : Binary64 :=
  ofWord negative 0

def infinity (negative : Bool) : Binary64 :=
  ofWord negative infiniteMagnitude

def nan (negative : Bool) : Binary64 :=
  ofWord negative (infiniteMagnitude + twoTo 51)

-- Places a number on the line of integers, in order; both zeros are at 0.
def rank (x : Binary64) : Int :=
  if x.isNegative then -x.magnitude else x.magnitude

-- A NaN is not below anything, and nothing is below it.
instance : LE Binary64 where
  le x y := x.isNaN = false ∧ y.isNaN = false ∧ x.rank ≤ y.rank

theorem le_def {x y : Binary64} :
    x ≤ y ↔ x.isNaN = false ∧ y.isNaN = false ∧ x.rank ≤ y.rank :=
  Iff.rfl

instance (x y : Binary64) : Decidable (x ≤ y) :=
  decidable_of_iff _ le_def.symm

protected theorem le_trans {x y z : Binary64} (h₁ : x ≤ y) (h₂ : y ≤ z) : x ≤ z :=
  ⟨h₁.1, h₂.2.1, Int.le_trans h₁.2.2 h₂.2.2⟩

-- The absolute value of a finite number is its significand times two to the power of its exponent.
def significand (x : Binary64) : Nat :=
  if x.magnitude < twoTo 52 then x.magnitude else twoTo 52 + x.magnitude % twoTo 52

def exponent (x : Binary64) : Int :=
  if x.magnitude < twoTo 52 then -1074 else (x.magnitude / twoTo 52 : Nat) - 1075

-- The absolute value of a finite number as a numerator and a denominator.
def ratio (x : Binary64) : Nat × Nat :=
  (x.significand * twoTo x.exponent.toNat, twoTo (-x.exponent).toNat)

end Binary64
end Stencil
