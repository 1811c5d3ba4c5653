/-
# `Divergence.SimpleDomain` — domains of scalars

A simple domain is a range `lower~upper` of integers, both ends included, or
a comma list of values with or without brackets around it; `[]` is the empty
domain.  It holds scalars of one of four kinds, which differ in three things:
which scalar an integer of a range stands for, which one a text in a list
stands for, and when two of them count as the same.

A list keeps each value once, at its first place.  A range is taken as it
comes: the scalars of its integers, in order.
-/
import Divergence.Binary64.Numeral
import Divergence.SpecError
import Divergence.Text.Blank
import Divergence.Text.Distinct

namespace Divergence

/-- The scalars that a simple domain can hold. -/
class Scalar (α : Type) where
  /-- The kind that error messages name. -/
  kind : ScalarKind
  /-- The scalar that an integer of a range stands for. -/
  ofBound? : Int → Option α
  /-- The scalar that an entry of a list stands for. -/
  ofLiteral? : List Char → Option α
  /-- Whether two scalars count as the same. -/
  same : α → α → Bool

/-- Integers of 64 bits. -/
instance : Scalar Int where
  kind := .int
  ofBound? i := some i
  ofLiteral? := Text.int64?
  same := (· == ·)

/-- Finite doubles.  An integer of a range stands for the double nearest to it, and the
two zeros are the same. -/
instance : Scalar Binary64 where
  kind := .float
  ofBound? i := some (.ofInt i)
  ofLiteral? s := (Binary64.ofText? s).filter Binary64.isFinite
  same := Binary64.numEq

/-- Truth values, written `0` and `1`. -/
instance : Scalar Bool where
  kind := .bool
  ofBound? i := if i = 0 then some false else if i = 1 then some true else none
  ofLiteral? s := if s = ['0'] then some false else if s = ['1'] then some true else none
  same := (· == ·)

/-- The length that an integer stands for. -/
def length? (i : Int) : Option Nat :=
  if 0 ≤ i then some i.toNat else none

/-- Lengths of strings and containers. -/
instance : Scalar Nat where
  kind := .length
  ofBound? := length?
  ofLiteral? s := (Text.int64? s).bind length?
  same := (· == ·)

namespace SimpleDomain

open Divergence.Text

def malformed (domain : List Char) (fault : DomainFault) : SpecError :=
  .malformedDomain (String.ofList domain) fault

def invalid (kind : ScalarKind) (value : List Char) : SpecError :=
  .invalidValue kind (String.ofList value)

def readBound (domain : List Char) (bound : Bound) (text : List Char) :
    Except SpecError Int :=
  match int64? (trim text) with
  | some i => .ok i
  | none => .error (.notAnInteger (String.ofList domain) bound)

def boundValue (α : Type) [Scalar α] (i : Int) : Except SpecError α :=
  match Scalar.ofBound? i with
  | some v => .ok v
  | none => .error (invalid (Scalar.kind α) (ofInt i))

def rangeValues (α : Type) [Scalar α] (lower upper : Int) : Except SpecError (List α) :=
  if upper < lower then .error (.invertedRange lower upper)
  else if (maxRange : Int) ≤ upper - lower then .error (.rangeTooLarge lower upper)
  else
    (List.range (upper - lower + 1).toNat).mapM fun n => boundValue α (lower + Int.ofNat n)

/-- The scalars of a range whose ends stand before and after the first tilde. -/
def readRange (α : Type) [Scalar α] (domain : List Char) : Except SpecError (List α) := do
  let lower ← readBound domain .lower (domain.takeWhile (· ≠ '~'))
  let upper ← readBound domain .upper ((domain.dropWhile (· ≠ '~')).drop 1)
  rangeValues α lower upper

def entryValue (α : Type) [Scalar α] (entry : List Char) : Except SpecError α :=
  match Scalar.ofLiteral? (trim entry) with
  | some v => .ok v
  | none => .error (invalid (Scalar.kind α) (trim entry))

def readList (α : Type) [Scalar α] (domain : List Char) : Except SpecError (List α) :=
  if domain.isEmpty then .error (malformed domain .empty)
  else
    let entries := dropFinal ']' (dropInitial '[' domain)
    if '[' ∈ entries || ']' ∈ entries then .error (malformed domain .unbalanced)
    else if allBlank entries then .ok []
    else do
      let values ← (splitAt ',' entries).mapM (entryValue α)
      return distinctBy Scalar.same values

/-- The scalars of a simple domain.  A tilde makes it a range, unless it comes first. -/
def readTrimmed (α : Type) [Scalar α] (domain : List Char) : Except SpecError (List α) :=
  if '(' ∈ domain || ')' ∈ domain then .error (malformed domain .elementsNotExpected)
  else if '~' ∈ domain && domain.head? != some '~' then readRange α domain
  else readList α domain

/-- The scalars of a simple domain with blanks around it. -/
def read (α : Type) [Scalar α] (text : List Char) : Except SpecError (List α) :=
  readTrimmed α (trim text)

end SimpleDomain

end Divergence
