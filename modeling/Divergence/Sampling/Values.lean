/-
# `Divergence.Sampling.Values` — values drawn from random domains

Scalars are drawn from the random domain, and so are the lengths of strings
and containers, whose entries are then drawn one by one with repetition.
Sets and dictionaries are canonical, so a set drawn with length five may have
fewer elements; it is never empty, though, unless the length was zero.

A draw fails when an empty domain or alphabet is reached.
-/
import Divergence.DomainTree.Basic
import Divergence.Sampling.Draw
import Divergence.Value.Basic

namespace Divergence.DomainTree

open Divergence.Sampling

/-- A value of the random domains. -/
def sample {σ : Type} (c : Chooser σ) : DomainTree → Draw σ Value
  | .int scalars => do return .int (← c.choose scalars.random)
  | .float scalars => do return .float (← c.choose scalars.random)
  | .bool scalars => do return .bool (← c.choose scalars.random)
  | .str alphabet lengths => do
    let length ← c.choose lengths.random
    let chars ← (c.choose alphabet).times length
    return .str (String.ofList chars)
  | .list element lengths => do
    let length ← c.choose lengths.random
    let items ← (element.sample c).times length
    return .list items
  | .tuple element lengths => do
    let length ← c.choose lengths.random
    let items ← (element.sample c).times length
    return .tuple items
  | .set element lengths => do
    let length ← c.choose lengths.random
    let elements ← (element.sample c).times length
    return Value.ofElements elements
  | .dict key value lengths => do
    let length ← c.choose lengths.random
    let entry : Draw σ (Value × Value) := do
      let k ← key.sample c
      let v ← value.sample c
      return (k, v)
    let entries ← entry.times length
    return Value.ofEntries entries

/-- An input of the random domains of several parameters. -/
def sampleInput {σ : Type} (c : Chooser σ) (parameters : List DomainTree) : Draw σ Input :=
  Draw.all (parameters.map (sample c))

end Divergence.DomainTree
