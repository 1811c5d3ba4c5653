/-
# `Divergence.DomainTree.Basic` — the values to try, by shape

A domain tree has the form of a parameter's shape and carries at every node
two collections: one from which values are enumerated exhaustively, and one
from which they are sampled at random.  Scalar nodes hold the scalars
themselves; strings and containers hold lengths.
-/
import Divergence.Binary64.Basic
import Divergence.Shape.Basic

namespace Divergence

/-- The two collections of a node, each in the order first written. -/
structure Domains (α : Type) where
  exhaustive : List α
  random : List α
  deriving DecidableEq, Repr

/-- A shape with domains at every node. -/
inductive DomainTree where
  | int (values : Domains Int)
  | float (values : Domains Binary64)
  | bool (values : Domains Bool)
  | str (alphabet : List Char) (lengths : Domains Nat)
  | list (element : DomainTree) (lengths : Domains Nat)
  | tuple (element : DomainTree) (lengths : Domains Nat)
  | set (element : DomainTree) (lengths : Domains Nat)
  | dict (key value : DomainTree) (lengths : Domains Nat)
  deriving DecidableEq, Repr

namespace DomainTree

def shape : DomainTree → Shape
  | .int _ => .int
  | .float _ => .float
  | .bool _ => .bool
  | .str alphabet _ => .str alphabet
  | .list element _ => .list element.shape
  | .tuple element _ => .tuple element.shape
  | .set element _ => .set element.shape
  | .dict key value _ => .dict key.shape value.shape

def kind (t : DomainTree) : Kind :=
  t.shape.kind

/-- The subtrees, keys before values. -/
def children : DomainTree → List DomainTree
  | .int _ | .float _ | .bool _ | .str _ _ => []
  | .list element _ | .tuple element _ | .set element _ => [element]
  | .dict key value _ => [key, value]

end DomainTree

end Divergence
