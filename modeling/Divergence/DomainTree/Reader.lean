/-
# `Divergence.DomainTree.Reader` — domain strings read against a shape

Scalars and strings take a simple domain.  A container takes
`counts(elements)`, where the counts are a simple domain of lengths and the
elements a domain for the element shape; a dictionary takes
`counts(keys:values)`.

The exhaustive and the random string are read side by side.  At each node
both are split before anything else, then the subtrees are built, and the
node's own counts come last; the first thing found wrong is reported with the
field it was found in.
-/
import Divergence.DomainTree.Basic
import Divergence.SimpleDomain
import Divergence.Text.Group

namespace Divergence.DomainTree

open Divergence.Text

/-- An error found in a field. -/
def inField {α : Type} (field : Field) : Except SpecError α → Except SpecError α
  | .ok a => .ok a
  | .error e => .error (.inField field e)

/-- The same reading of the exhaustive and of the random string, in this order. -/
def sides {α : Type} (reading : List Char → Except SpecError α)
    (exhaustive random : List Char) : Except SpecError (α × α) := do
  let x ← inField .exhaustive (reading exhaustive)
  let r ← inField .random (reading random)
  return (x, r)

def readDomains (α : Type) [Scalar α] (exhaustive random : List Char) :
    Except SpecError (Domains α) := do
  let (x, r) ← sides (SimpleDomain.read α) exhaustive random
  return ⟨x, r⟩

/-- The counts and the elements of a container's domain, neither of them blank. -/
def splitContainer (text : List Char) : Except SpecError Group :=
  let domain := trim text
  match splitGroup domain with
  | .textAfterClose => .error (SimpleDomain.malformed domain .textAfterClose)
  | .plain => .error (SimpleDomain.malformed domain .noElements)
  | .group g =>
    if allBlank g.head then .error (SimpleDomain.malformed domain .noCounts)
    else if allBlank g.inner then .error (SimpleDomain.malformed domain .emptyElements)
    else .ok g

/-- The keys and the values inside a dictionary's domain, neither of them blank. -/
def splitEntry (inner : List Char) : Except SpecError (List Char × List Char) :=
  match splitTopLevel ':' inner with
  | some (key, value) =>
    if allBlank key || allBlank value then .error (SimpleDomain.malformed inner .notAPair)
    else .ok (key, value)
  | none => .error (SimpleDomain.malformed inner .notAPair)

/-- The domain tree that a shape and two domain strings describe. -/
def read : Shape → (exhaustive random : List Char) → Except SpecError DomainTree
  | .int, x, r => (readDomains Int x r).map .int
  | .float, x, r => (readDomains Binary64 x r).map .float
  | .bool, x, r => (readDomains Bool x r).map .bool
  | .str alphabet, x, r => (readDomains Nat x r).map (.str alphabet)
  | .list element, x, r => do
    let (gx, gr) ← sides splitContainer x r
    let elements ← read element gx.inner gr.inner
    let lengths ← readDomains Nat gx.head gr.head
    return .list elements lengths
  | .tuple element, x, r => do
    let (gx, gr) ← sides splitContainer x r
    let elements ← read element gx.inner gr.inner
    let lengths ← readDomains Nat gx.head gr.head
    return .tuple elements lengths
  | .set element, x, r => do
    let (gx, gr) ← sides splitContainer x r
    let elements ← read element gx.inner gr.inner
    let lengths ← readDomains Nat gx.head gr.head
    return .set elements lengths
  | .dict key value, x, r => do
    let (gx, gr) ← sides splitContainer x r
    let (ex, er) ← sides splitEntry gx.inner gr.inner
    let keys ← read key ex.1 er.1
    let values ← read value ex.2 er.2
    let lengths ← readDomains Nat gx.head gr.head
    return .dict keys values lengths

end Divergence.DomainTree
