/-
# `Divergence.Binary64.Numeral` — doubles read from text

A numeral is an optional sign, digits with at most one point among or around
them, and an optional exponent of at least one digit; `inf`, `infinity` and
`nan` are read in any case.  Nothing else is accepted, blanks included.  The
double is the one nearest to the decimal, so that every finite double has a
numeral that reads back as it.
-/
import Divergence.Binary64.Rounding
import Divergence.Text.Numeral

namespace Divergence.Binary64

open Divergence.Text

/-- The sign at the start of a numeral, and the rest. -/
def takeSign : List Char → Bool × List Char
  | '-' :: rest => (true, rest)
  | '+' :: rest => (false, rest)
  | s => (false, s)

/-- Lower case of the ASCII letters. -/
def lower (s : List Char) : List Char :=
  s.map Char.toLower

/-- The exponent part: nothing, or `e` and an integer with at least one digit. -/
def exponent? : List Char → Option Int
  | [] => some 0
  | c :: rest => if c = 'e' || c = 'E' then integer? rest else none

/-- The decimal `n · 10 ^ e` that digits, a point and an exponent write. -/
def decimal? (s : List Char) : Option (Nat × Int) :=
  let whole := s.takeWhile Char.isDigit
  let rest := s.dropWhile Char.isDigit
  let (fraction, tail) :=
    match rest with
    | '.' :: after => (after.takeWhile Char.isDigit, after.dropWhile Char.isDigit)
    | _ => ([], rest)
  if whole.isEmpty && fraction.isEmpty then none
  else
    (exponent? tail).map fun e =>
      (Nat.ofDigitChars 10 (whole ++ fraction) 0, e - (fraction.length : Int))

/-- The double that a numeral names. -/
def ofText? (text : List Char) : Option Binary64 :=
  let (negative, rest) := takeSign text
  let word := lower rest
  if word = "inf".toList || word = "infinity".toList then some (infinity negative)
  else if word = "nan".toList then some (quietNaN negative)
  else (decimal? rest).map fun (n, e) => ofDecimal negative n e

end Divergence.Binary64
