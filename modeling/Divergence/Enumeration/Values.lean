/-
# `Divergence.Enumeration.Values` — the values of an exhaustive domain

Scalars are the domain itself.  Strings, lists and tuples are all sequences
of each length over the alphabet or the element values.  Sets are all choices
of so many element values, and dictionaries all choices of so many keys with
every assignment of values to them.
-/
import Divergence.DomainTree.Basic
import Divergence.Enumeration.Sequences
import Divergence.Value.Basic

namespace Divergence.DomainTree

open Divergence.Enumeration

/-- The dictionaries of `n` entries with keys and values from two lists. -/
def dictionaries (keys values : List Value) (n : Nat) : List Value :=
  (combinations keys n).flatMap fun chosen =>
    (power values n).map fun assigned => Value.ofEntries (chosen.zip assigned)

/-- Every value of the exhaustive domains. -/
def values : DomainTree → List Value
  | .int scalars => scalars.exhaustive.map .int
  | .float scalars => scalars.exhaustive.map .float
  | .bool scalars => scalars.exhaustive.map .bool
  | .str alphabet lengths =>
    (lengths.exhaustive.flatMap (power alphabet)).map fun chars => .str (String.ofList chars)
  | .list element lengths =>
    let elements := element.values
    (lengths.exhaustive.flatMap (power elements)).map .list
  | .tuple element lengths =>
    let elements := element.values
    (lengths.exhaustive.flatMap (power elements)).map .tuple
  | .set element lengths =>
    let elements := element.values
    (lengths.exhaustive.flatMap (combinations elements)).map Value.ofElements
  | .dict key value lengths =>
    let keys := key.values
    let values := value.values
    lengths.exhaustive.flatMap (dictionaries keys values)

/-- Every input of the exhaustive domains of several parameters. -/
def inputs (parameters : List DomainTree) : List Input :=
  product (parameters.map values)

end Divergence.DomainTree
