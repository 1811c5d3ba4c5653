/-
# `Divergence.Binary64.Rounding` — the double nearest to a fraction

Whole numbers and decimals become doubles by rounding to nearest, ties to
the even significand, with overflow to infinity and gradual underflow.  A
positive fraction `num / den` is scaled to an exponent at which its
significand has fifty-three bits (fewer at the bottom of the range), divided,
and rounded once; the carry out of the significand is then carried into the
exponent field by plain addition.
-/
import Divergence.Binary64.Basic

namespace Divergence.Binary64

/-- The whole number nearest to `num / den`, the even one of two. -/
def roundHalfEven (num den : Nat) : Nat :=
  let quotient := num / den
  let twice := 2 * (num % den)
  if twice < den || (twice == den && quotient % 2 == 0) then quotient else quotient + 1

/-- `num / den` scaled by `2 ^ -q`, as a numerator and a denominator. -/
def scaled (num den : Nat) (q : Int) : Nat × Nat :=
  (num <<< (-q).toNat, den <<< q.toNat)

/-- The exponent at which `num / den` has a significand of fifty-three bits, but never
below the exponent of the smallest doubles. -/
def exponentFor (num den : Nat) : Int :=
  let guess : Int := max ((num.log2 : Int) - (den.log2 : Int) - 53) (-1074)
  let (a, b) := scaled num den guess
  if 2 * leadingBit * b ≤ a then guess + 1 else guess

/-- The magnitude of the double nearest to a positive fraction. -/
def nearestMagnitude (num den : Nat) : Nat :=
  let q := exponentFor num den
  let (a, b) := scaled num den q
  min (roundHalfEven a b + (q + 1074).toNat * leadingBit) infMagnitude

/-- The double nearest to `num / den`, of the given sign. -/
def ofFraction (negative : Bool) (num den : Nat) : Binary64 :=
  if num = 0 then zero negative else ofMagnitude negative (nearestMagnitude num den)

/-- The double nearest to an integer. -/
def ofInt (i : Int) : Binary64 :=
  ofFraction (i < 0) i.natAbs 1

/-- The double nearest to `n · 10 ^ e`, of the given sign.  Numbers far outside the
range are decided by their count of digits, so that no large power is computed. -/
def ofDecimal (negative : Bool) (n : Nat) (e : Int) : Binary64 :=
  let size : Int := (Nat.toDigits 10 n).length + e
  if n = 0 then zero negative
  else if 310 < size then infinity negative
  else if size < -330 then zero negative
  else ofFraction negative (n * Nat.pow 10 e.toNat) (Nat.pow 10 (-e).toNat)

end Divergence.Binary64
