/-
# `Divergence.Text.Blank` — blank characters and trimming

Domain strings, type tokens and captured error output are all trimmed before
they are looked at.  What counts as blank is Unicode's `White_Space`
property, twenty-five code points in all; the zero-width space and the
byte-order mark are not among them and survive trimming.

Texts are scanned as lists of characters throughout the library, so that
every scanner is a recursion on its input.
-/

namespace Divergence.Text

/-- The code points with the `White_Space` property. -/
def isBlank (c : Char) : Bool :=
  let n := c.toNat
  (0x09 ≤ n && n ≤ 0x0D) || n == 0x20 || n == 0x85 || n == 0xA0 || n == 0x1680 ||
    (0x2000 ≤ n && n ≤ 0x200A) || n == 0x2028 || n == 0x2029 || n == 0x202F ||
    n == 0x205F || n == 0x3000

/-- The control characters of category `Cc`. -/
def isControl (c : Char) : Bool :=
  c.toNat < 0x20 || (0x7F ≤ c.toNat && c.toNat ≤ 0x9F)

def trimStart (s : List Char) : List Char :=
  s.dropWhile isBlank

def trimEnd (s : List Char) : List Char :=
  (s.reverse.dropWhile isBlank).reverse

def trim (s : List Char) : List Char :=
  trimEnd (trimStart s)

def allBlank (s : List Char) : Bool :=
  s.all isBlank

/-- The text without one final `c`, if it ends in `c`. -/
def dropFinal (c : Char) (s : List Char) : List Char :=
  if s.getLast? = some c then s.dropLast else s

/-- The text without one leading `c`, if it starts with `c`. -/
def dropInitial (c : Char) : List Char → List Char
  | [] => []
  | x :: rest => if x = c then rest else x :: rest

/-- The parts of a text between occurrences of `c`; one more part than there are
occurrences. -/
def splitAt (c : Char) : List Char → List (List Char)
  | [] => [[]]
  | x :: rest =>
    if x = c then [] :: splitAt c rest
    else
      match splitAt c rest with
      | [] => [[x]]
      | part :: parts => (x :: part) :: parts

/-- Whether `needle` stands somewhere in the text. -/
def occursIn (needle : List Char) : List Char → Bool
  | [] => needle.isEmpty
  | x :: rest => needle.isPrefixOf (x :: rest) || occursIn needle rest

/-! ## Lengths -/

theorem length_dropWhile_le {α : Type} (p : α → Bool) (l : List α) :
    (l.dropWhile p).length ≤ l.length := by
  induction l with
  | nil => simp
  | cons x xs ih =>
    rw [List.dropWhile_cons]
    split
    · simp only [List.length_cons]; omega
    · exact Nat.le_refl _

theorem length_trim_le (s : List Char) : (trim s).length ≤ s.length := by
  have h₁ := length_dropWhile_le isBlank s
  have h₂ := length_dropWhile_le isBlank (s.dropWhile isBlank).reverse
  simp only [trim, trimEnd, trimStart, List.length_reverse] at *
  omega

end Divergence.Text
