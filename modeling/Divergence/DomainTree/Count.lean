/-
# `Divergence.DomainTree.Count` — how many values an expansion has

The size of an exhaustive expansion is computed, and limited, before anything
is enumerated.  Counts are natural numbers capped at `2 ^ 128 - 1`: sums,
products and powers are the exact ones up to the cap.  Binomial coefficients
are built factor by factor and give the cap as soon as a product on the way
exceeds it, even where the division that follows would bring it back below.
-/
import Divergence.DomainTree.Basic
import Divergence.SpecError

namespace Divergence

namespace Count

/-- The greatest count there is. -/
def cap : Nat := 0xFFFFFFFFFFFFFFFFFFFFFFFFFFFFFFFF

def add (a b : Nat) : Nat :=
  min (a + b) cap

def mul (a b : Nat) : Nat :=
  min (a * b) cap

/-- The greatest exponent there is. -/
def maxExponent : Nat := 0xFFFFFFFF

/-- A power, up to the cap.  From base two on, an exponent of 128 already reaches it. -/
def cappedPow (base exponent : Nat) : Nat :=
  match base, exponent with
  | _, 0 => 1
  | 0, _ + 1 => 0
  | 1, _ + 1 => 1
  | base, exponent => min (Nat.pow base (min exponent 128)) cap

/-- The power, up to the cap, of a base to a length.  Lengths above the greatest exponent
are taken for it. -/
def power (base length : Nat) : Nat :=
  cappedPow base (min length maxExponent)

/-- `acc` times the next `steps` factors of a binomial coefficient of `n`, of which `done`
were taken before: each is multiplied in and then divided by its place. -/
def binomialFrom (n : Nat) : (steps done acc : Nat) → Nat
  | 0, _, acc => acc
  | steps + 1, done, acc =>
    let product := acc * (n - done)
    if cap < product then cap else binomialFrom n steps (done + 1) (product / (done + 1))

/-- The number of ways to choose `k` of `n`. -/
def binomial (n k : Nat) : Nat :=
  if n < k then 0 else binomialFrom n (min k (n - k)) 0 1

/-- The sum of the counts for each of several lengths. -/
def sumOver (lengths : List Nat) (count : Nat → Nat) : Nat :=
  lengths.foldl (fun acc length => add acc (count length)) 0

end Count

namespace DomainTree

open Divergence.Count

/-- The number of values in the exhaustive expansion of a domain tree. -/
def exhaustiveCount : DomainTree → Nat
  | .int values => values.exhaustive.length
  | .float values => values.exhaustive.length
  | .bool values => values.exhaustive.length
  | .str alphabet lengths => sumOver lengths.exhaustive fun n => power alphabet.length n
  | .list element lengths | .tuple element lengths =>
    let elements := element.exhaustiveCount
    sumOver lengths.exhaustive fun n => power elements n
  | .set element lengths =>
    let elements := element.exhaustiveCount
    sumOver lengths.exhaustive fun n => binomial elements n
  | .dict key value lengths =>
    let keys := key.exhaustiveCount
    let values := value.exhaustiveCount
    sumOver lengths.exhaustive fun n => mul (binomial keys n) (power values n)

/-- Refuses a node whose own expansion is above the limit. -/
def checkNode (t : DomainTree) : Except SpecError Unit :=
  if maxExhaustive < t.exhaustiveCount then
    .error (.tooManyValues (.node t.kind) t.exhaustiveCount)
  else .ok ()

/-- Refuses a tree with a node whose expansion is above the limit; subtrees are looked at
first. -/
def checkExpansion : DomainTree → Except SpecError Unit
  | .int values => checkNode (.int values)
  | .float values => checkNode (.float values)
  | .bool values => checkNode (.bool values)
  | .str alphabet lengths => checkNode (.str alphabet lengths)
  | .list element lengths => do
    checkExpansion element
    checkNode (.list element lengths)
  | .tuple element lengths => do
    checkExpansion element
    checkNode (.tuple element lengths)
  | .set element lengths => do
    checkExpansion element
    checkNode (.set element lengths)
  | .dict key value lengths => do
    checkExpansion key
    checkExpansion value
    checkNode (.dict key value lengths)

/-- The number of inputs in the product of several exhaustive expansions. -/
def baseSetSize (parameters : List DomainTree) : Nat :=
  parameters.foldl (fun acc t => mul acc t.exhaustiveCount) 1

end DomainTree

end Divergence
