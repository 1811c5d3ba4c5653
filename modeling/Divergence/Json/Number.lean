/-
# `Divergence.Json.Number` — how a number literal is classified

A literal is an integer when it has neither fraction nor exponent and fits a
64-bit word, signed if it has a minus sign and unsigned otherwise.  Every
other literal is a real number, of which only one thing is asked: is it in
the range of doubles?

The question is put to an approximation of the literal.  Its leading digits
are collected into a 64-bit word for as long as they fit; the word and the
power of ten that remains are each rounded to a double, and the literal is
out of range when their product is.
-/
import Divergence.Binary64.Rounding
import Divergence.Json.Basic
import Divergence.Text.Numeral

namespace Divergence.Json

/-- A number literal in its parts, digits as written. -/
structure Literal where
  /-- Whether there is a minus sign. -/
  negative : Bool
  /-- The digits before the point. -/
  whole : List Char
  /-- The digits after the point, if there is one. -/
  fraction : Option (List Char)
  /-- The exponent, if there is one. -/
  exponent : Option Int

/-- Digits added to a word for as long as it stays a 64-bit word, and those left over. -/
def gather : Nat → List Char → Nat × List Char
  | word, [] => (word, [])
  | word, c :: rest =>
    let next := word * 10 + (c.toNat - '0'.toNat)
    if next < Text.wordRange then gather next rest else (word, c :: rest)

/-- The word and the power of ten that approximate a literal. -/
def Literal.approximation (l : Literal) : Nat × Int :=
  let fraction := l.fraction.getD []
  let (word, dropped) := gather 0 l.whole
  let (word, unused) := gather word fraction
  let used := fraction.length - unused.length
  (word, (dropped.length : Int) - used + l.exponent.getD 0)

/-- Whether the product of a word and a power of ten is a finite double, each of them
rounded to a double first. -/
def inRange (word : Nat) (power : Int) : Bool :=
  if word = 0 || power < 0 then true
  else if 308 < power then false
  else
    let x := Binary64.ofFraction false word 1
    let y := Binary64.ofFraction false (Nat.pow 10 power.toNat) 1
    let unit := x.exponent + y.exponent
    let num := x.significand * y.significand <<< unit.toNat
    (Binary64.ofFraction false num (1 <<< (-unit).toNat)).isFinite

/-- What a number literal stands for. -/
def Literal.number (l : Literal) : Number :=
  let n := Nat.ofDigitChars 10 l.whole 0
  let plain := l.fraction.isNone && l.exponent.isNone
  if plain && !l.negative && n < Text.wordRange then .integer n
  else if plain && l.negative && n != 0 && n ≤ 0x8000000000000000 then .integer (-n)
  else
    let (word, power) := l.approximation
    .other (inRange word power)

end Divergence.Json
