/-
# `Divergence.Binary64.Basic` — doubles as bit patterns

A double is its 64 bits.  Everything the library does with doubles (ordering
them, telling them apart, reading and writing them as decimals) is decided
by exact integer arithmetic on the decoded pattern; no machine float takes
part, so all of it can be computed inside a proof.

Two equalities are kept apart.  `=` on this type is equality of patterns;
`numEq` is the numeric one, under which the two zeros are equal and a NaN
equals nothing.
-/

namespace Divergence

/-- A double, as its bit pattern. -/
structure Binary64 where
  /-- Sign bit, eleven exponent bits, fifty-two fraction bits. -/
  bits : UInt64
  deriving DecidableEq, Repr

namespace Binary64

/-! ## Fields -/

/-- The weight of the sign bit, bit sixty-three. -/
def signBit : Nat := 0x8000000000000000

/-- The weight of a normal significand's leading bit, bit fifty-two, which patterns leave
out. -/
def leadingBit : Nat := 0x10000000000000

/-- The bit pattern without the sign, as a number. -/
def magnitude (x : Binary64) : Nat :=
  x.bits.toNat % signBit

def negative (x : Binary64) : Bool :=
  signBit ≤ x.bits.toNat

/-- The magnitude of both infinities; those of NaNs lie above it. -/
def infMagnitude : Nat :=
  0x7FF0000000000000

/-- The double of a sign and a magnitude. -/
def ofMagnitude (negative : Bool) (magnitude : Nat) : Binary64 :=
  ⟨UInt64.ofNat (if negative then signBit + magnitude else magnitude)⟩

/-- Neither infinite nor a NaN. -/
def isFinite (x : Binary64) : Bool :=
  x.magnitude < infMagnitude

/-- A NaN of either sign and any payload. -/
def isNaN (x : Binary64) : Bool :=
  infMagnitude < x.magnitude

/-- The significand `m` of a finite double of value `± m · 2 ^ x.exponent`. -/
def significand (x : Binary64) : Nat :=
  let fraction := x.magnitude % leadingBit
  if x.magnitude / leadingBit = 0 then fraction else leadingBit + fraction

/-- The exponent `q` of a finite double of value `± x.significand · 2 ^ q`. -/
def exponent (x : Binary64) : Int :=
  let field := x.magnitude / leadingBit
  if field = 0 then -1074 else Int.ofNat field - 1075

/-- The zero with a sign of its own, `-0.0` when `negative`. -/
def zero (negative : Bool) : Binary64 :=
  ofMagnitude negative 0

def infinity (negative : Bool) : Binary64 :=
  ofMagnitude negative infMagnitude

def quietNaN (negative : Bool) : Binary64 :=
  ofMagnitude negative 0x7FF8000000000000

/-! ## Order and equality -/

/-- The place of a double in the total order of all patterns: negative before positive,
and within a sign by distance from zero, NaNs outermost. -/
def orderKey (x : Binary64) : Int :=
  if x.negative then -(x.magnitude : Int) - 1 else x.magnitude

/-- Numeric equality: the zeros are equal, and a NaN equals nothing. -/
def numEq (x y : Binary64) : Bool :=
  if x.isNaN || y.isNaN then false
  else if x.magnitude == 0 && y.magnitude == 0 then true
  else x == y

theorem bits_toNat (x : Binary64) :
    x.bits.toNat = (if x.negative then signBit else 0) + x.magnitude := by
  have h := x.bits.toNat_lt
  by_cases hs : signBit ≤ x.bits.toNat <;> simp [negative, magnitude, hs] <;>
    simp only [signBit] at hs ⊢ <;> omega

/-- The order key tells all bit patterns apart. -/
theorem orderKey_inj {x y : Binary64} : x.orderKey = y.orderKey ↔ x = y := by
  constructor
  · intro h
    have hx := bits_toNat x
    have hy := bits_toNat y
    simp only [signBit] at hx hy
    have hbits : x.bits.toNat = y.bits.toNat := by
      simp only [orderKey] at h
      cases hnx : x.negative <;> cases hny : y.negative <;> simp [hnx, hny] at h hx hy <;> omega
    cases x; cases y
    simpa using UInt64.toNat_inj.mp hbits
  · rintro rfl; rfl

end Binary64

end Divergence
