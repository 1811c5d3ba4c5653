/-
# `Divergence.Binary64.Shortest` — the fewest digits that read back

A double stands for every real number that rounds to it, an interval around
its own value.  Its text is a decimal from that interval with as few digits
as possible, and of several such decimals the one nearest to the value (the
upper one in a tie).

The search goes through decimal grids from coarse to fine: on the grid of
multiples of `10 ^ p` only the two neighbours of the value are tried, since
if any grid point lies in the interval one of these does.  Seventeen digits
always suffice for a double; the search stops a little beyond that, and would
then fall back on the exact decimal expansion.

The digits are laid out positionally, with at least one of them on either
side of the point, while the number is neither very large nor very small, and
otherwise with an exponent that has neither plus sign nor padding.
-/
import Divergence.Binary64.Basic
import Divergence.Text.Numeral

namespace Divergence.Binary64

open Divergence.Text

/-! ## The interval that rounds to a double -/

/-- A positive double with the interval around it, as whole multiples of `2 ^ unit`. -/
structure Span where
  /-- The value itself. -/
  mid : Nat
  /-- The lower end of the interval. -/
  low : Nat
  /-- The upper end of the interval. -/
  high : Nat
  /-- The exponent of the common unit. -/
  unit : Int
  /-- Whether the ends round to the double too. -/
  closed : Bool

/-- The interval of a finite double other than zero.  Below a power of two the
neighbour is half as far away as above it. -/
def span (x : Binary64) : Span :=
  let m := x.significand
  { mid := 4 * m
    low := if m = leadingBit then 4 * m - 1 else 4 * m - 2
    high := 4 * m + 2
    unit := x.exponent - 2
    closed := m % 2 = 0 }

/-- Both sides of a comparison between `n · 2 ^ unit` and `d · 10 ^ p`, brought to whole
numbers. -/
def onGrid (unit p : Int) (n d : Nat) : Nat × Nat :=
  (n * Nat.pow 10 (-p).toNat <<< unit.toNat, d * Nat.pow 10 p.toNat <<< (-unit).toNat)

/-- Whether `d · 10 ^ p` lies in the interval. -/
def Span.holds (s : Span) (p : Int) (d : Nat) : Bool :=
  let (low, x) := onGrid s.unit p s.low d
  let (high, _) := onGrid s.unit p s.high d
  if s.closed then low ≤ x && x ≤ high else low < x && x < high

/-- The multiple of `10 ^ p` at or below the value. -/
def Span.below (s : Span) (p : Int) : Nat :=
  let (n, d) := onGrid s.unit p s.mid 1
  n / d

/-- Of two neighbours `d` and `d + 1` on a grid, whether the upper one is to be
preferred: it is no further from the value. -/
def Span.upperNearer (s : Span) (p : Int) (d : Nat) : Bool :=
  let (n, unit) := onGrid s.unit p s.mid 1
  (2 * d + 1) * unit ≤ 2 * n

/-- The decimal of the interval on one grid, if it has any. -/
def Span.pick? (s : Span) (p : Int) : Option Nat :=
  let d := s.below p
  match s.holds p d, s.holds p (d + 1) with
  | true, true => some (if s.upperNearer p d then d + 1 else d)
  | true, false => some d
  | false, true => some (d + 1)
  | false, false => none

/-! ## The search -/

/-- A grid so coarse that the value lies below its first point. -/
def Span.coarsest (s : Span) : Int :=
  let log2 : Int := (s.mid.log2 : Int) + s.unit
  Int.fdiv ((log2 + 1) * 30103) 100000 + 2

/-- The first decimal found on `steps` grids, each ten times finer than the one before. -/
def Span.search (s : Span) : Nat → Int → Option (Nat × Int)
  | 0, _ => none
  | steps + 1, p =>
    match s.pick? p with
    | some d => some (d, p)
    | none => s.search steps (p - 1)

/-- The exact decimal expansion of the value. -/
def Span.exact (s : Span) : Nat × Int :=
  let p := min s.unit 0
  (s.mid * Nat.pow 5 (-p).toNat <<< s.unit.toNat, p)

/-- The decimal `d · 10 ^ p` that a finite double other than zero is written as. -/
def shortest (x : Binary64) : Nat × Int :=
  (x.span.search 24 x.span.coarsest).getD x.span.exact

/-! ## Layout -/

/-- The digits without the zeros at their end, and the place of the point counted from
the first digit. -/
def normalise (decimal : Nat × Int) : List Char × Int :=
  let all := Text.ofNat decimal.1
  ((all.reverse.dropWhile (· = '0')).reverse, (all.length : Int) + decimal.2)

/-- Digits written out around a point that stands after the first `point` of them. -/
def positional (digits : List Char) (point : Int) : List Char :=
  if point ≤ 0 then "0.".toList ++ List.replicate (-point).toNat '0' ++ digits
  else
    let whole := digits.take point.toNat
    let fraction := digits.drop point.toNat
    whole ++ List.replicate (point.toNat - whole.length) '0' ++ ['.'] ++
      (if fraction.isEmpty then ['0'] else fraction)

/-- Digits written with one of them before the point, and an exponent. -/
def scientific (digits : List Char) (point : Int) : List Char :=
  digits.take 1 ++ (if digits.length ≤ 1 then [] else '.' :: digits.drop 1) ++ ['e'] ++
    Text.ofInt (point - 1)

/-- The text of a positive finite magnitude: positional from one ten-thousandth up to,
but not including, ten to the sixteenth. -/
def layout (digits : List Char) (point : Int) : List Char :=
  if -3 ≤ point && point ≤ 16 then positional digits point else scientific digits point

def text (x : Binary64) : List Char :=
  if x.isNaN then "NaN".toList
  else
    let sign := if x.negative then ['-'] else []
    if !x.isFinite then sign ++ "inf".toList
    else if x.magnitude = 0 then sign ++ "0.0".toList
    else
      let (digits, point) := normalise x.shortest
      sign ++ layout digits point

end Divergence.Binary64
