/-
# `Divergence.Shape.Reader` — type tokens

    type  ::=  int | float | bool
            |  str( alphabet )
            |  list( type ) | tuple( type ) | set( type )
            |  dict( type : type )

Blanks may surround every type and keyword, and closing parentheses may be
left off at the end (`list(dict(int:str(ab`).  An alphabet is different from
other groups: everything up to the end of the token belongs to it, except for
one closing parenthesis at the very end.
-/
import Divergence.Shape.Basic
import Divergence.SpecError
import Divergence.Text.Blank
import Divergence.Text.Distinct
import Divergence.Text.Group

namespace Divergence.Shape

open Divergence.Text

/-- The error for a token that starts like a type. -/
def malformed (token : List Char) (fault : TypeFault) : SpecError :=
  .malformedType (String.ofList token) fault

/-- The error for a token that does not. -/
def unknown (token : List Char) : SpecError :=
  .unknownType (String.ofList token)

/-- The type that a token without a group names. -/
def readPrimitive (token : List Char) : Except SpecError Shape :=
  match Kind.ofLabel? token with
  | some .int => .ok .int
  | some .float => .ok .float
  | some .bool => .ok .bool
  | _ => .error (unknown token)

/-- The alphabet that the text after an opening parenthesis lists: its characters in the
order of first appearance. -/
def alphabet (content : List Char) : List Char :=
  distinctBy (· == ·) (dropFinal ')' content)

/-- The inside of a token's group, which has to hold something. -/
def body (token : List Char) : Except SpecError (List Char) :=
  match splitGroup token with
  | .group g =>
    if allBlank g.inner then .error (malformed token .emptyElement) else .ok g.inner
  | .textAfterClose => .error (malformed token .textAfterClose)
  | .plain => .error (unknown token)

/-- The two types inside a dictionary's group, neither of them blank. -/
def halves (token inner : List Char) : Except SpecError (List Char × List Char) :=
  match splitTopLevel ':' inner with
  | some (key, value) =>
    if allBlank key || allBlank value then .error (malformed token .notAPair)
    else .ok (key, value)
  | none => .error (malformed token .notAPair)

/-- A shape, if it is hashable. -/
def requireHashable (container : HashedContainer) (shape : Shape) : Except SpecError Shape :=
  if shape.hashable then .ok shape else .error (.unhashable container shape.kind)

theorem length_body_lt {token inner : List Char} (h : body token = .ok inner) :
    inner.length < token.length := by
  unfold body at h
  split at h
  · next g hg =>
    split at h
    · cases h
    · cases h
      exact length_inner_lt hg
  · cases h
  · cases h

theorem length_halves_lt {token inner key value : List Char}
    (h : halves token inner = .ok (key, value)) :
    key.length < inner.length ∧ value.length < inner.length := by
  unfold halves at h
  split at h
  · next k v hkv =>
    split at h
    · cases h
    · cases h
      have := length_splitTopLevel hkv
      omega
  · cases h

/-- The type that a token without blanks around it describes. -/
def readTrimmed (token : List Char) : Except SpecError Shape :=
  if '(' ∉ token then readPrimitive token
  else
    let keyword := trim (beforeOpen token)
    match Kind.ofLabel? keyword with
    | some .str => .ok (.str (alphabet ((fromOpen token).drop 1)))
    | some .list =>
      match _h : body token with
      | .error e => .error e
      | .ok inner => (readTrimmed (trim inner)).map .list
    | some .tuple =>
      match _h : body token with
      | .error e => .error e
      | .ok inner => (readTrimmed (trim inner)).map .tuple
    | some .set =>
      match _h : body token with
      | .error e => .error e
      | .ok inner => do
        let element ← readTrimmed (trim inner)
        let element ← requireHashable .set element
        return .set element
    | some .dict =>
      match _h : body token with
      | .error e => .error e
      | .ok inner =>
        match _h' : halves token inner with
        | .error e => .error e
        | .ok (k, v) => do
          let key ← readTrimmed (trim k)
          let key ← requireHashable .dict key
          let value ← readTrimmed (trim v)
          return .dict key value
    | _ => .error (if keyword.isEmpty then malformed token .noTypeName else unknown token)
termination_by token.length
decreasing_by
  · exact Nat.lt_of_le_of_lt (length_trim_le _) (length_body_lt _h)
  · exact Nat.lt_of_le_of_lt (length_trim_le _) (length_body_lt _h)
  · exact Nat.lt_of_le_of_lt (length_trim_le _) (length_body_lt _h)
  · exact Nat.lt_of_le_of_lt (length_trim_le _)
      (Nat.lt_trans (length_halves_lt _h').1 (length_body_lt _h))
  · exact Nat.lt_of_le_of_lt (length_trim_le _)
      (Nat.lt_trans (length_halves_lt _h').2 (length_body_lt _h))

def read (text : List Char) : Except SpecError Shape :=
  readTrimmed (trim text)

end Divergence.Shape
