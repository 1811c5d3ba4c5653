/-
# `Divergence.Text.Numeral` — integers as decimal text

Integers are written without padding and without a plus sign.  Reading is a
little wider than writing: one sign of either kind and leading zeros are
allowed, but nothing else is (no blanks, no digit separators, and only the
ten ASCII digits), and a number outside the range asked for is refused.
-/

namespace Divergence.Text

def ofNat (n : Nat) : List Char :=
  Nat.toDigits 10 n

def ofInt (i : Int) : List Char :=
  if i < 0 then '-' :: ofNat i.natAbs else ofNat i.natAbs

/-- The number a non-empty run of digits stands for. -/
def digits? (s : List Char) : Option Nat :=
  if s.isEmpty || !s.all Char.isDigit then none else some (Nat.ofDigitChars 10 s 0)

/-- The integer a text of digits after at most one sign stands for. -/
def integer? : List Char → Option Int
  | '+' :: rest => (digits? rest).map Int.ofNat
  | '-' :: rest => (digits? rest).map fun n => -Int.ofNat n
  | s => (digits? s).map Int.ofNat

def wordRange : Nat := 0x10000000000000000

/-- Whether an integer fits in 64 bits with a sign. -/
def fitsInt64 (i : Int) : Bool :=
  -0x8000000000000000 ≤ i && i < 0x8000000000000000

/-- A 64-bit signed integer. -/
def int64? (s : List Char) : Option Int :=
  (integer? s).filter fitsInt64

/-- A 64-bit unsigned integer: digits after at most a plus sign. -/
def word64? (s : List Char) : Option Nat :=
  (digits? (dropPlus s)).filter (· < wordRange)
where
  /-- The text without a leading plus sign. -/
  dropPlus : List Char → List Char
    | '+' :: rest => rest
    | s => s

/-! ## Writing, then reading -/

theorem digits?_ofNat (n : Nat) : digits? (ofNat n) = some n := by
  have hne : (Nat.toDigits 10 n).isEmpty = false := by
    simp [List.isEmpty_eq_false_iff]
  have hall : (Nat.toDigits 10 n).all Char.isDigit = true := by
    rw [List.all_eq_true]
    exact fun c hc => Nat.isDigit_of_mem_toDigits (by decide) (by decide) hc
  simp [digits?, ofNat, hne, hall, Nat.ofDigitChars_ten_toDigits]

end Divergence.Text
