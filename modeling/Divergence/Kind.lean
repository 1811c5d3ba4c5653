/-
# `Divergence.Kind` — the names that specifications and messages use

The kinds of type, the kinds of scalar a simple domain can hold, and the
fields of a specification, each with the word that stands for it in a
specification file and in error messages.
-/

namespace Divergence

inductive Kind where
  | int | float | bool | str | list | tuple | set | dict
  deriving DecidableEq, Repr

def Kind.label : Kind → String
  | .int => "int"
  | .float => "float"
  | .bool => "bool"
  | .str => "str"
  | .list => "list"
  | .tuple => "tuple"
  | .set => "set"
  | .dict => "dict"

def Kind.all : List Kind :=
  [.int, .float, .bool, .str, .list, .tuple, .set, .dict]

def Kind.ofLabel? (word : List Char) : Option Kind :=
  Kind.all.find? fun k => k.label.toList = word

/-- The kinds of scalar that simple domains hold; the domain of a string or container
holds lengths. -/
inductive ScalarKind where
  | int | float | bool | length
  deriving DecidableEq, Repr

def ScalarKind.label : ScalarKind → String
  | .int => "int"
  | .float => "float"
  | .bool => "bool"
  | .length => "length"

inductive Field where
  | function | types | exhaustive | random | numRandom | seed
  deriving DecidableEq, Repr

/-- The name of a field in the file. -/
def Field.label : Field → String
  | .function => "fname"
  | .types => "types"
  | .exhaustive => "exhaustive domain"
  | .random => "random domain"
  | .numRandom => "num random"
  | .seed => "seed"

/-- The fields that a specification has to have, in the order in which they are reported
missing. -/
def Field.required : List Field :=
  [.function, .types, .exhaustive, .random, .numRandom]

end Divergence
