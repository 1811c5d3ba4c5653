/-
# `Divergence.BaseSet` — the inputs of a run

The base set is every exhaustive input, then as many random ones as the
specification asks for, each distinct input once and at its first place.  A
round of sampling that fails gives no input and is not made up for.

Exhaustive inputs come first and in a fixed order, so an input's position in
the base set does not depend on the seed as long as it is one of them.
-/
import Divergence.Enumeration.Values
import Divergence.Sampling.Values
import Divergence.Spec
import Std.Data.HashSet

namespace Divergence.BaseSet

open Divergence.Sampling

/-- The random inputs of some rounds, and the state after them.

Lists are taken to fit in memory, as in `Enumeration.power`.  Where the room for one input a
round is reserved first, a number of rounds whose inputs would pass the address space fails
before anything is drawn. -/
def randomInputs {σ : Type} (c : Chooser σ) (parameters : List DomainTree) :
    (rounds : Nat) → σ → List Input × σ
  | 0, s => ([], s)
  | rounds + 1, s =>
    match DomainTree.sampleInput c parameters s with
    | (some input, s) =>
      let (rest, s) := randomInputs c parameters rounds s
      (input :: rest, s)
    | (none, s) => randomInputs c parameters rounds s

/-- The inputs that are not among those seen, each at its first place. -/
def unseen (seen : Std.HashSet Input) : List Input → List Input
  | [] => []
  | input :: inputs =>
    if seen.contains input then unseen seen inputs
    else input :: unseen (seen.insert input) inputs

/-- The distinct inputs, each at its first place. -/
def distinct (inputs : List Input) : List Input :=
  unseen ∅ inputs

/-- The inputs to run, and the state after they were drawn. -/
def generate {σ : Type} (c : Chooser σ) (parameters : List DomainTree) (rounds : Nat)
    (s : σ) : List Input × σ :=
  let (random, s) := randomInputs c parameters rounds s
  (distinct (DomainTree.inputs parameters ++ random), s)

/-- The inputs to run for a specification and a seed. -/
def ofSpec (spec : Spec) (seed : Nat) : List Input :=
  (generate Keystream.chooser spec.parameters spec.numRandom
    (Keystream.ofSeed (UInt64.ofNat seed))).1

end Divergence.BaseSet
