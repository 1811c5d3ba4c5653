/-
# `Divergence.Shape.Basic` — the types of parameters

A shape says what a parameter's values look like, before any domain says
which of them are to be tried.  Strings carry the characters they may be
built from.  Set elements and dictionary keys have to be hashable, which
scalars, strings and tuples of hashable elements are.
-/
import Divergence.Kind

namespace Divergence

inductive Shape where
  | int
  | float
  | bool
  | str (alphabet : List Char)
  | list (element : Shape)
  | tuple (element : Shape)
  | set (element : Shape)
  | dict (key value : Shape)
  deriving DecidableEq, Repr

namespace Shape

def kind : Shape → Kind
  | .int => .int
  | .float => .float
  | .bool => .bool
  | .str _ => .str
  | .list _ => .list
  | .tuple _ => .tuple
  | .set _ => .set
  | .dict _ _ => .dict

/-- Whether values of a shape can be set elements and dictionary keys. -/
def hashable : Shape → Bool
  | .int | .float | .bool | .str _ => true
  | .tuple element => element.hashable
  | .list _ | .set _ | .dict _ _ => false

end Shape

end Divergence
