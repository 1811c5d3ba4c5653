/-
# `Divergence.Json.Writer` — documents written as text

Two layouts: compact, without any blanks, and indented, with one member or
item a line and two spaces a level.  Empty arrays and objects take no lines
of their own in either.  In string literals only the quote, the backslash and
the control characters below U+0020 are escaped, by their short escape if
they have one; everything else stands for itself.

A number that is no integer has lost its digits when it was read and is
written as `null`, as is a string literal without a text; the documents that
the library itself builds have neither.
-/
import Divergence.Json.Basic
import Divergence.Text.Numeral

namespace Divergence.Json

open Divergence.Text

def hexDigit (n : Nat) : Char :=
  Nat.digitChar n

/-- A character as it stands inside a string literal. -/
def escape (c : Char) : List Char :=
  if c = '"' then ['\\', '"']
  else if c = '\\' then ['\\', '\\']
  else if c = '\x08' then ['\\', 'b']
  else if c = '\t' then ['\\', 't']
  else if c = '\n' then ['\\', 'n']
  else if c = '\x0c' then ['\\', 'f']
  else if c = '\r' then ['\\', 'r']
  else if c.toNat < 0x20 then
    ['\\', 'u', '0', '0', hexDigit (c.toNat / 16), hexDigit (c.toNat % 16)]
  else [c]

def quote (s : String) : List Char :=
  '"' :: (s.toList.flatMap escape ++ ['"'])

/-- A string literal, or `null` for one without a text. -/
def writeString : Option String → List Char
  | some s => quote s
  | none => "null".toList

/-- A number, or `null` for one whose digits are not known. -/
def writeNumber : Number → List Char
  | .integer i => ofInt i
  | .other _ => "null".toList

/-! ## Compact -/

mutual

def compact : Json → List Char
  | .null => "null".toList
  | .bool true => "true".toList
  | .bool false => "false".toList
  | .number n => writeNumber n
  | .string s => writeString s
  | .array items => '[' :: compactItems items
  | .object members => '{' :: compactMembers members

/-- The items of an array, with the bracket that closes it. -/
def compactItems : List Json → List Char
  | [] => [']']
  | [item] => compact item ++ [']']
  | item :: items => compact item ++ ',' :: compactItems items

/-- The members of an object, with the brace that closes it. -/
def compactMembers : List (Option String × Json) → List Char
  | [] => ['\x7d']
  | [(name, value)] => writeString name ++ ':' :: (compact value ++ ['\x7d'])
  | (name, value) :: members =>
    writeString name ++ ':' :: (compact value ++ ',' :: compactMembers members)

end

/-! ## Indented -/

/-- A line feed and the indentation of a level. -/
def newline (level : Nat) : List Char :=
  '\n' :: List.replicate (2 * level) ' '

mutual

/-- The indented text of a document that stands at a level. -/
def indented (level : Nat) : Json → List Char
  | .array [] => "[]".toList
  | .array items => '[' :: indentedItems level items
  | .object [] => ['{', '\x7d']
  | .object members => '{' :: indentedMembers level members
  | .null => "null".toList
  | .bool true => "true".toList
  | .bool false => "false".toList
  | .number n => writeNumber n
  | .string s => writeString s

/-- The items of an array that stands at a level, with the bracket that closes it. -/
def indentedItems (level : Nat) : List Json → List Char
  | [] => newline level ++ [']']
  | [item] => newline (level + 1) ++ indented (level + 1) item ++ newline level ++ [']']
  | item :: items =>
    newline (level + 1) ++ indented (level + 1) item ++ ',' :: indentedItems level items

/-- The members of an object that stands at a level, with the brace that closes it. -/
def indentedMembers (level : Nat) : List (Option String × Json) → List Char
  | [] => newline level ++ ['\x7d']
  | [(name, value)] =>
    newline (level + 1) ++ writeString name ++ ": ".toList ++ indented (level + 1) value ++
      newline level ++ ['\x7d']
  | (name, value) :: members =>
    newline (level + 1) ++ writeString name ++ ": ".toList ++ indented (level + 1) value ++
      ',' :: indentedMembers level members

end

end Divergence.Json
