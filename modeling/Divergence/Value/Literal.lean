/-
# `Divergence.Value.Literal` — values written as Python literals

The functions under test are Python functions, and a value reaches them as
the text of a literal.  Containers are written with one blank after each
comma; the tuple of one value has a comma of its own, and the empty set,
which has no literal, is the call `set()`.  Strings stand in single quotes
and escape the quote, the backslash and every control character.
-/
import Divergence.Binary64.Shortest
import Divergence.Text.Blank
import Divergence.Value.Basic

namespace Divergence.Value

open Divergence.Text

/-- A character as it stands inside a string literal. -/
def escape (c : Char) : List Char :=
  if c = '\\' then ['\\', '\\']
  else if c = '\'' then ['\\', '\'']
  else if c = '\n' then ['\\', 'n']
  else if c = '\r' then ['\\', 'r']
  else if c = '\t' then ['\\', 't']
  else if isControl c then
    ['\\', 'x', Nat.digitChar (c.toNat / 16), Nat.digitChar (c.toNat % 16)]
  else [c]

def quote (s : String) : List Char :=
  '\'' :: (s.toList.flatMap escape ++ ['\''])

mutual

def literal : Value → List Char
  | .int i => ofInt i
  | .float x => x.text
  | .bool true => "True".toList
  | .bool false => "False".toList
  | .str s => quote s
  | .list items => '[' :: (joined items ++ [']'])
  | .tuple [item] => '(' :: (literal item ++ [',', ')'])
  | .tuple items => '(' :: (joined items ++ [')'])
  | .set [] => "set()".toList
  | .set elements => '\x7b' :: (joined elements ++ ['\x7d'])
  | .dict entries => '\x7b' :: (joinedEntries entries ++ ['\x7d'])

/-- The literals of several values, with a comma and a blank between them. -/
def joined : List Value → List Char
  | [] => []
  | [item] => literal item
  | item :: items => literal item ++ ',' :: ' ' :: joined items

/-- The literals of several entries, with a comma and a blank between them. -/
def joinedEntries : List (Value × Value) → List Char
  | [] => []
  | [(key, value)] => literal key ++ ':' :: ' ' :: literal value
  | (key, value) :: entries =>
    literal key ++ ':' :: ' ' :: (literal value ++ ',' :: ' ' :: joinedEntries entries)

end

def text (v : Value) : String :=
  String.ofList v.literal

end Divergence.Value

namespace Divergence.Input

/-- The arguments of a call, as the literal of a tuple. -/
def arguments (input : Input) : String :=
  (Value.tuple input).text

/-- The arguments of a call, as they stand between its parentheses. -/
def listing (input : Input) : String :=
  String.ofList (Value.joined input)

end Divergence.Input
