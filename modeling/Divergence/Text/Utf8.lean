/-
# `Divergence.Text.Utf8` — bytes read as text, without refusal

Whatever bytes a process writes are read as UTF-8.  Bytes that are no UTF-8
do not stop the reading: each maximal run that starts a character but cannot
finish it, and each byte that cannot start one, becomes U+FFFD.

The reader is a machine with two kinds of state: between characters, or
inside one with some continuation bytes owed.  The first of the owed bytes
has a range of its own, which is how overlong forms, surrogates and code
points past U+10FFFF are caught at the earliest byte.
-/
import Divergence.Text.Blank

namespace Divergence.Text

/-! ## Decoding -/

/-- What is known of a character whose first bytes were read. -/
structure Partial where
  /-- Continuation bytes owed after the next one. -/
  owed : Nat
  /-- The least value that the next byte may have. -/
  low : Nat
  /-- The greatest value that the next byte may have. -/
  high : Nat
  /-- The code point bits collected so far. -/
  bits : Nat

/-- How a first byte begins a character of more than one byte. -/
def Partial.ofLead (b : Nat) : Option Partial :=
  if 0xC2 ≤ b && b ≤ 0xDF then some ⟨0, 0x80, 0xBF, b - 0xC0⟩
  else if b == 0xE0 then some ⟨1, 0xA0, 0xBF, 0⟩
  else if b == 0xED then some ⟨1, 0x80, 0x9F, 0xD⟩
  else if 0xE1 ≤ b && b ≤ 0xEF then some ⟨1, 0x80, 0xBF, b - 0xE0⟩
  else if b == 0xF0 then some ⟨2, 0x90, 0xBF, 0⟩
  else if 0xF1 ≤ b && b ≤ 0xF3 then some ⟨2, 0x80, 0xBF, b - 0xF0⟩
  else if b == 0xF4 then some ⟨2, 0x80, 0x8F, 4⟩
  else none

/-- The character that stands for bytes that are no UTF-8. -/
def replacement : Char := '\uFFFD'

/-- The state after a byte read between characters, and what it adds to the text. -/
def startByte (b : Nat) : Option Partial × List Char :=
  if b < 0x80 then (none, [Char.ofNat b])
  else
    match Partial.ofLead b with
    | some p => (some p, [])
    | none => (none, [replacement])

/-- The state after a byte read in the given state, and what it adds to the text. -/
def stepByte : Option Partial → Nat → Option Partial × List Char
  | none, b => startByte b
  | some p, b =>
    if p.low ≤ b && b ≤ p.high then
      let bits := p.bits * 64 + (b - 0x80)
      match p.owed with
      | 0 => (none, [Char.ofNat bits])
      | n + 1 => (some ⟨n, 0x80, 0xBF, bits⟩, [])
    else
      let (state, out) := startByte b
      (state, replacement :: out)

/-- The text that bytes read in a given state stand for. -/
def decodeFrom : Option Partial → List UInt8 → List Char
  | none, [] => []
  | some _, [] => [replacement]
  | state, b :: bytes =>
    let (next, out) := stepByte state b.toNat
    out ++ decodeFrom next bytes

/-- The text that bytes stand for. -/
def decode (bytes : List UInt8) : List Char :=
  decodeFrom none bytes

/-! ## Lines -/

/-- The lines of a text: what stands between line feeds, without the carriage return
that may precede a line feed.  A final line feed starts no line. -/
def lines (s : List Char) : List (List Char) :=
  let parts := splitAt '\n' s
  let last := parts.getLast?.getD []
  parts.dropLast.map (dropFinal '\r') ++ (if last.isEmpty then [] else [last])

/-! ## Sizes in bytes -/

/-- The size of a text in bytes. -/
def byteSize : List Char → Nat
  | [] => 0
  | c :: rest => c.utf8Size + byteSize rest

/-- The longest start of a text that fits in `room` bytes. -/
def fitting : Nat → List Char → List Char
  | _, [] => []
  | room, c :: rest =>
    if c.utf8Size ≤ room then c :: fitting (room - c.utf8Size) rest else []

/-- The longest end of a text that fits in `room` bytes. -/
def fittingEnd (room : Nat) (s : List Char) : List Char :=
  (fitting room s.reverse).reverse

end Divergence.Text
