/-
# `Divergence.Json.Record` — documents read as records and variants

Two shapes of document stand for structured data.  A *record* is an object
with known member names, each at most once, among others that are not looked
at; it may also be written as the array of its members in order, and then
none may be missing.  A *variant* is an object whose single member is named
for one of several alternatives, or, for an alternative that carries nothing,
just the string of that name.
-/
import Divergence.Json.Basic

namespace Divergence.Json

/-- The values of the members with one name, in order. -/
def valuesNamed (members : List (Option String × Json)) (name : String) : List Json :=
  (members.filter fun m => m.1 = some name).map Prod.snd

/-- The only value with a name, `some none` if there is none; refused if there are
several. -/
def onlyNamed? (members : List (Option String × Json)) (name : String) :
    Option (Option Json) :=
  match valuesNamed members name with
  | [] => some none
  | [value] => some (some value)
  | _ => none

/-- The values of a record's members, in the order of the names; `none` in place of a
member that the record lacks. -/
def record? (names : List String) : Json → Option (List (Option Json))
  | .object members =>
    if members.all fun m => m.1.isSome then names.mapM (onlyNamed? members) else none
  | .array items =>
    if items.length = names.length then some (items.map some) else none
  | _ => none

/-- A variant: the name of the alternative, and what it carries if it carries anything. -/
def variant? : Json → Option (String × Option Json)
  | .string (some name) => some (name, none)
  | .object [(some name, value)] => some (name, some value)
  | _ => none

/-- Whether a variant's content is that of an alternative that carries nothing. -/
def carriesNothing : Option Json → Bool
  | none => true
  | some value => value.isNull

end Divergence.Json
