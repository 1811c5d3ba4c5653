/-
# `Divergence.Text.Path` — names and extensions in file paths

A path is a text whose segments are separated by slashes.  Its file name is
the last segment, where empty segments and single dots at the end do not
count; a path that then ends in `..`, or in nothing, has none.  A file name
is divided at its last dot into stem and extension, unless that dot comes
first or there is none.

Nothing here looks at a file system.
-/
import Divergence.Text.Blank

namespace Divergence.Text

/-- A reversed path without the slashes, and segments of a single dot, it starts with. -/
def stripTail : List Char → List Char
  | [] => []
  | c :: rest =>
    if c = '/' || (c = '.' && rest.head? = some '/') then stripTail rest else c :: rest

/-- A path without the slashes, and segments of a single dot, at its end. -/
def trimTail (path : List Char) : List Char :=
  (stripTail path.reverse).reverse

def lastSegment (path : List Char) : List Char :=
  (path.reverse.takeWhile (· ≠ '/')).reverse

def fileName? (path : List Char) : Option (List Char) :=
  let name := lastSegment (trimTail path)
  if name.isEmpty || name = ['.'] || name = ['.', '.'] then none else some name

/-- The part of a name before its last dot, and the part after it; `none` for a name that
is not divided. -/
def atLastDot? (name : List Char) : Option (List Char × List Char) :=
  let after := (name.reverse.takeWhile (· ≠ '.')).reverse
  let stem := name.take (name.length - after.length - 1)
  if '.' ∉ name || stem.isEmpty then none else some (stem, after)

def stem? (path : List Char) : Option (List Char) :=
  (fileName? path).map fun name =>
    match atLastDot? name with
    | some (stem, _) => stem
    | none => name

def extension? (path : List Char) : Option (List Char) :=
  ((fileName? path).bind atLastDot?).map Prod.snd

/-- A path cut after the stem of its file name, or as it is if it has none. -/
def cutAfterStem (path : List Char) : List Char :=
  match fileName? path, stem? path with
  | some name, some stem =>
    let tail := trimTail path
    tail.take (tail.length - name.length + stem.length)
  | _, _ => path

/-- A path without its extension: as many characters as the extension has are taken off
its end, and what is left is cut after its stem. -/
def withoutExtension (path : List Char) : List Char :=
  let size := ((extension? path).map List.length).getD 0
  cutAfterStem (path.take (path.length - size))

/-- A path followed by one more segment. -/
def child (directory name : List Char) : List Char :=
  if directory.isEmpty || directory.getLast? = some '/' then directory ++ name
  else directory ++ '/' :: name

end Divergence.Text
