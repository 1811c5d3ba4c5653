/-
# `Divergence.Spec` — specification files

A specification is a JSON object that names the function under test and gives
each parameter a type token, an exhaustive domain and a random domain, in
three arrays of one length.  It also says how many random inputs to add, and
may fix the seed they are drawn with.  Of a repeated member the last counts,
and `null` counts as absent.

Everything is checked before anything runs, in this order: the JSON, the
presence of all required fields, their types in turn, the three lengths,
then each parameter from first to last, and the size of the base set at the
end.
-/
import Divergence.DomainTree.Count
import Divergence.DomainTree.Reader
import Divergence.Json.Reader
import Divergence.Shape.Reader

namespace Divergence

/-- What to call, and with what. -/
structure Spec where
  function : String
  /-- One domain tree for each parameter, in the order of the call. -/
  parameters : List DomainTree
  /-- The number of random inputs to add to the exhaustive ones. -/
  numRandom : Nat
  /-- The seed of the random inputs, if it is fixed. -/
  seed : Option Nat
  deriving Repr

namespace Spec

abbrev Members := List (Option String × Json)

/-- The value of a field, unless it is absent or `null`. -/
def field? (members : Members) (field : Field) : Option Json :=
  (Json.lastNamed? members field.label).filter fun value => !value.isNull

def missing (members : Members) : List Field :=
  Field.required.filter fun field => (field? members field).isNone

/-- Refuses an object that lacks required fields, and names all of them. -/
def checkRequired (members : Members) : Except SpecError Unit :=
  if (missing members).isEmpty then .ok () else .error (.missingFields (missing members))

/-- A field of a given type. -/
def typedField {α : Type} (members : Members) (field : Field) (expected : Expected)
    (read : Json → Option α) : Except SpecError α :=
  match (field? members field).bind read with
  | some a => .ok a
  | none => .error (.wrongFieldType field expected)

def texts? (value : Json) : Option (List String) :=
  value.items?.bind fun items => items.mapM Json.text?

def stringField (members : Members) (field : Field) : Except SpecError String :=
  typedField members field .string Json.text?

def stringsField (members : Members) (field : Field) : Except SpecError (List String) :=
  typedField members field .strings texts?

def naturalField (members : Members) (field : Field) : Except SpecError Nat :=
  typedField members field .natural Json.word?

/-- The seed, which may be absent. -/
def seedField (members : Members) : Except SpecError (Option Nat) :=
  match field? members .seed with
  | none => .ok none
  | some _ => (naturalField members .seed).map some

/-- The domain tree that the texts of a parameter describe. -/
def readTree (type exhaustive random : List Char) : Except SpecError DomainTree := do
  let shape ← DomainTree.inField .types (Shape.read type)
  DomainTree.read shape (Text.trim exhaustive) (Text.trim random)

/-- The domain tree of a parameter, none of whose expansions is above the limit. -/
def readParameter (type exhaustive random : List Char) : Except SpecError DomainTree := do
  let tree ← readTree type exhaustive random
  DomainTree.inField .exhaustive tree.checkExpansion
  return tree

/-- The domain trees of parameters that are counted from `index` on. -/
def readParameters : (index : Nat) → (types exhaustive random : List String) →
    Except SpecError (List DomainTree)
  | index, type :: types, x :: exhaustive, r :: random =>
    match readParameter type.toList x.toList r.toList with
    | .error e => .error (.atParameter index e)
    | .ok tree => (readParameters (index + 1) types exhaustive random).map (tree :: ·)
  | _, _, _, _ => .ok []

/-- Refuses arrays that are not all of one length. -/
def checkLengths (types exhaustive random : List String) : Except SpecError Unit :=
  if types.length = exhaustive.length ∧ types.length = random.length then .ok ()
  else .error (.lengthMismatch types.length exhaustive.length random.length)

/-- Refuses parameters whose base set is above the limit. -/
def checkBaseSet (parameters : List DomainTree) : Except SpecError Unit :=
  let size := DomainTree.baseSetSize parameters
  if maxExhaustive < size then .error (.tooManyValues .baseSet size) else .ok ()

def ofMembers (members : Members) : Except SpecError Spec := do
  checkRequired members
  let function ← stringField members .function
  let types ← stringsField members .types
  let exhaustive ← stringsField members .exhaustive
  let random ← stringsField members .random
  let numRandom ← naturalField members .numRandom
  let seed ← seedField members
  checkLengths types exhaustive random
  let parameters ← readParameters 0 types exhaustive random
  checkBaseSet parameters
  return { function, parameters, numRandom, seed }

def read (text : List Char) : Except SpecError Spec :=
  match Json.readSound? text with
  | none => .error .notJson
  | some (.object members) => ofMembers members
  | some _ => .error .notAnObject

end Spec

end Divergence
