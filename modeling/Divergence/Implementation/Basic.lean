/-
# `Divergence.Implementation.Basic` — the implementations that are compared

One implementation is the reference, the others are candidates.  An
implementation is named after the stem of its file; the names stand in
reports and tell candidates apart, so candidates that would share one are
renamed, first to their path without the extension, and then, where names
still collide, by a number.
-/
import Divergence.Text.Numeral
import Divergence.Text.Path

namespace Divergence

structure Implementation where
  name : String
  path : String
  deriving DecidableEq, Repr

/-- The reference and the candidates that are compared with it. -/
structure Implementations where
  reference : Implementation
  candidates : List Implementation
  deriving DecidableEq, Repr

namespace Implementation

/-- The implementation in a file, named after the stem of the file, or after the path if
that has no file name. -/
def ofPath (path : String) : Implementation where
  name := String.ofList ((Text.stem? path.toList).getD path.toList)
  path := path

/-- The same implementation named after its path. -/
def renamed (i : Implementation) : Implementation :=
  { i with name := String.ofList (Text.withoutExtension i.path.toList) }

def countNamed (name : String) (all : List Implementation) : Nat :=
  all.countP fun i => i.name = name

/-- Candidates that share a name, renamed after their paths. -/
def renameShared (candidates : List Implementation) : List Implementation :=
  candidates.map fun i => if 1 < countNamed i.name candidates then i.renamed else i

def numbered (name : String) (n : Nat) : String :=
  s!"{name}#{n}"

/-- Candidates with a number after each name that occurred before; `earlier` holds the
names of those before them. -/
def numberRepeated (earlier : List String) : List Implementation → List Implementation
  | [] => []
  | i :: rest =>
    let n := earlier.count i.name + 1
    let name := if 1 < n then numbered i.name n else i.name
    { i with name } :: numberRepeated (i.name :: earlier) rest

end Implementation

namespace Implementations

/-- A reference and candidates, the candidates renamed where names collide. -/
def ofParts (reference : Implementation) (candidates : List Implementation) :
    Implementations where
  reference := reference
  candidates := Implementation.numberRepeated [] (Implementation.renameShared candidates)

/-- The reference, then the candidates in order. -/
def all (i : Implementations) : List Implementation :=
  i.reference :: i.candidates

end Implementations

end Divergence
