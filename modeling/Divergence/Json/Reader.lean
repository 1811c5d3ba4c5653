/-
# `Divergence.Json.Reader` — JSON text read into documents

The grammar is that of RFC 8259 to the letter: four blank characters, no
comments, no trailing commas, no byte-order mark, no control characters
inside string literals, nothing after the document.

The reader is a recursion on an amount of fuel that the length of the text
bounds: a call for a value spends one unit, a call for the rest of a list
spends one, and between two of the latter at least one character is read.
-/
import Divergence.Json.Number
import Divergence.Text.Numeral

namespace Divergence.Json

open Divergence.Text

/-- The characters that may stand between tokens. -/
def isSpace (c : Char) : Bool :=
  c = ' ' || c = '\t' || c = '\n' || c = '\r'

/-- The text from its first token on. -/
def skip (s : List Char) : List Char :=
  s.dropWhile isSpace

/-! ## String literals -/

/-- What one piece of a string literal contributes. -/
inductive Piece where
  | char (c : Char)
  /-- The escaped first half of a surrogate pair. -/
  | high (n : Nat)
  /-- The escaped second half of a surrogate pair. -/
  | low (n : Nat)

def hexDigit? (c : Char) : Option Nat :=
  if c.isDigit then some (c.toNat - '0'.toNat)
  else if 'a' ≤ c && c ≤ 'f' then some (c.toNat - 'a'.toNat + 10)
  else if 'A' ≤ c && c ≤ 'F' then some (c.toNat - 'A'.toNat + 10)
  else none

def hex4? (a b c d : Char) : Option Nat := do
  let a ← hexDigit? a
  let b ← hexDigit? b
  let c ← hexDigit? c
  let d ← hexDigit? d
  some (a * 4096 + b * 256 + c * 16 + d)

/-- The piece that a sixteen-bit unit stands for. -/
def Piece.ofUnit (n : Nat) : Piece :=
  if 0xD800 ≤ n && n < 0xDC00 then .high n
  else if 0xDC00 ≤ n && n < 0xE000 then .low n
  else .char (Char.ofNat n)

/-- The character after a backslash, for the escapes of one character. -/
def shortEscape? (c : Char) : Option Char :=
  if c = '"' || c = '\\' || c = '/' then some c
  else if c = 'b' then some '\x08'
  else if c = 'f' then some '\x0c'
  else if c = 'n' then some '\n'
  else if c = 'r' then some '\r'
  else if c = 't' then some '\t'
  else none

/-- The pieces of a literal up to its closing quote, and the text after it. -/
def stringPieces : List Char → Option (List Piece × List Char)
  | [] => none
  | '"' :: rest => some ([], rest)
  | '\\' :: 'u' :: a :: b :: c :: d :: rest => do
    let n ← hex4? a b c d
    let (pieces, rest) ← stringPieces rest
    some (.ofUnit n :: pieces, rest)
  | '\\' :: e :: rest => do
    let c ← shortEscape? e
    let (pieces, rest) ← stringPieces rest
    some (.char c :: pieces, rest)
  | c :: rest =>
    if c.toNat < 0x20 then none
    else do
      let (pieces, rest) ← stringPieces rest
      some (.char c :: pieces, rest)

/-- The text of the pieces, if every half of a surrogate pair meets its other half. -/
def joinPieces : List Piece → Option (List Char)
  | [] => some []
  | .char c :: rest => (joinPieces rest).map (c :: ·)
  | .high h :: .low l :: rest =>
    (joinPieces rest).map (Char.ofNat (0x10000 + (h - 0xD800) * 0x400 + (l - 0xDC00)) :: ·)
  | _ => none

/-- The literal after an opening quote, and the text after it. -/
def stringAfterQuote (s : List Char) : Option (Option String × List Char) :=
  (stringPieces s).map fun (pieces, rest) => ((joinPieces pieces).map String.ofList, rest)

/-! ## Numbers -/

/-- The digits at the start of a text, of which there is at least one, and the rest. -/
def someDigits (s : List Char) : Option (List Char × List Char) :=
  let digits := s.takeWhile Char.isDigit
  if digits.isEmpty then none else some (digits, s.dropWhile Char.isDigit)

/-- The fraction at the start of a text, if there is one. -/
def fractionPart : List Char → Option (Option (List Char) × List Char)
  | '.' :: rest => (someDigits rest).map fun (digits, rest) => (some digits, rest)
  | s => some (none, s)

/-- The exponent at the start of a text, if there is one. -/
def exponentPart : List Char → Option (Option Int × List Char)
  | [] => some (none, [])
  | c :: rest =>
    if c = 'e' || c = 'E' then
      match rest with
      | '-' :: rest =>
        (someDigits rest).map fun (digits, rest) =>
          (some (-Int.ofNat (Nat.ofDigitChars 10 digits 0)), rest)
      | '+' :: rest =>
        (someDigits rest).map fun (digits, rest) =>
          (some (Int.ofNat (Nat.ofDigitChars 10 digits 0)), rest)
      | rest =>
        (someDigits rest).map fun (digits, rest) =>
          (some (Int.ofNat (Nat.ofDigitChars 10 digits 0)), rest)
    else some (none, c :: rest)

/-- The number literal at the start of a text, and the text after it. -/
def numberAtStart (s : List Char) : Option (Number × List Char) := do
  let (negative, s) := match s with
    | '-' :: rest => (true, rest)
    | s => (false, s)
  let (whole, s) ← someDigits s
  if whole.head? = some '0' && 1 < whole.length then none
  else do
    let (fraction, s) ← fractionPart s
    let (exponent, s) ← exponentPart s
    some (Literal.number { negative, whole, fraction, exponent }, s)

/-! ## Documents -/

/-- The text after a keyword, if it starts with it. -/
def afterKeyword (keyword : String) (s : List Char) : Option (List Char) :=
  if keyword.toList.isPrefixOf s then some (s.drop keyword.length) else none

mutual

/-- The document at the start of a text, and the text after it. -/
def readValue : Nat → List Char → Option (Json × List Char)
  | 0, _ => none
  | fuel + 1, s =>
    match skip s with
    | '"' :: rest => (stringAfterQuote rest).map fun (literal, rest) => (.string literal, rest)
    | '[' :: rest =>
      match skip rest with
      | ']' :: rest => some (.array [], rest)
      | rest => (readItems fuel rest).map fun (items, rest) => (.array items, rest)
    | '{' :: rest =>
      match skip rest with
      | '}' :: rest => some (.object [], rest)
      | rest => (readMembers fuel rest).map fun (members, rest) => (.object members, rest)
    | 'n' :: rest => (afterKeyword "ull" rest).map fun rest => (.null, rest)
    | 't' :: rest => (afterKeyword "rue" rest).map fun rest => (.bool true, rest)
    | 'f' :: rest => (afterKeyword "alse" rest).map fun rest => (.bool false, rest)
    | rest => (numberAtStart rest).map fun (n, rest) => (.number n, rest)

/-- The items of an array that has at least one more, up to its closing bracket. -/
def readItems : Nat → List Char → Option (List Json × List Char)
  | 0, _ => none
  | fuel + 1, s => do
    let (item, rest) ← readValue fuel s
    match skip rest with
    | ',' :: rest => (readItems fuel rest).map fun (items, rest) => (item :: items, rest)
    | ']' :: rest => some ([item], rest)
    | _ => none

/-- The members of an object that has at least one more, up to its closing brace. -/
def readMembers : Nat → List Char → Option (List (Option String × Json) × List Char)
  | 0, _ => none
  | fuel + 1, s => do
    let (name, rest) ← match skip s with
      | '"' :: rest => stringAfterQuote rest
      | _ => none
    let (value, rest) ← match skip rest with
      | ':' :: rest => readValue fuel rest
      | _ => none
    match skip rest with
    | ',' :: rest =>
      (readMembers fuel rest).map fun (members, rest) => ((name, value) :: members, rest)
    | '}' :: rest => some ([(name, value)], rest)
    | _ => none

end

/-- The document that a text is. -/
def read? (s : List Char) : Option Json :=
  match readValue (2 * s.length + 2) s with
  | some (j, rest) => if (skip rest).isEmpty then some j else none
  | none => none

/-- The document that a text is, if all of it can be used. -/
def readSound? (s : List Char) : Option Json :=
  (read? s).filter (sound maxDepth)

end Divergence.Json
