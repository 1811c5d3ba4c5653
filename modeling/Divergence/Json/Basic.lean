/-
# `Divergence.Json.Basic` — JSON documents

A document is the tree that RFC 8259's grammar gives a text, no more: object
members stay in the order written, repeated names included, and two things
the grammar allows but a reader may not be able to use are kept visible
instead of being refused on the spot.  A string literal that escapes half of
a surrogate pair has no text, and a number may lie outside the range of
doubles.  Whether that matters depends on whether anybody looks at the value,
so it is asked separately: a document is `sound` if it has neither and is not
nested too deeply either.
-/

namespace Divergence

/-- A number, as far as the library tells numbers apart. -/
inductive Json.Number where
  /-- Written without fraction and exponent, and in the range of 64-bit words, signed
  or unsigned.  (Minus zero is not among these.) -/
  | integer (i : Int)
  /-- Any other number, and whether it is in the range of doubles. -/
  | other (inRange : Bool)
  deriving DecidableEq, Repr

inductive Json where
  | null
  | bool (b : Bool)
  | number (n : Json.Number)
  /-- A string literal; `none` if it has no text. -/
  | string (s : Option String)
  | array (items : List Json)
  | object (members : List (Option String × Json))
  deriving Repr

namespace Json

def ofString (s : String) : Json :=
  .string (some s)

def ofNat (n : Nat) : Json :=
  .number (.integer n)

def record (members : List (String × Json)) : Json :=
  .object (members.map fun (name, value) => (some name, value))

/-! ## Soundness -/

mutual

/-- Whether every string literal has a text, every number is in range, and arrays and
objects are nested at most `room` deep. -/
def sound (room : Nat) : Json → Bool
  | .null | .bool _ | .number (.integer _) => true
  | .number (.other inRange) => inRange
  | .string s => s.isSome
  | .array items =>
    match room with
    | 0 => false
    | room + 1 => soundItems room items
  | .object members =>
    match room with
    | 0 => false
    | room + 1 => soundMembers room members

/-- `sound` for every item of an array. -/
def soundItems (room : Nat) : List Json → Bool
  | [] => true
  | item :: items => sound room item && soundItems room items

/-- `sound` for every member of an object, its name included. -/
def soundMembers (room : Nat) : List (Option String × Json) → Bool
  | [] => true
  | (name, value) :: members => name.isSome && sound room value && soundMembers room members

end

/-- The depth to which arrays and objects may be nested. -/
def maxDepth : Nat := 127

/-! ## Looking inside -/

def text? : Json → Option String
  | .string s => s
  | _ => none

/-- A natural number below `2 ^ 64`. -/
def word? : Json → Option Nat
  | .number (.integer i) => if 0 ≤ i && i < 0x10000000000000000 then some i.toNat else none
  | _ => none

/-- An integer of 32 bits with a sign. -/
def int32? : Json → Option Int
  | .number (.integer i) => if -0x80000000 ≤ i && i < 0x80000000 then some i else none
  | _ => none

theorem text?_eq_some {j : Json} {s : String} : j.text? = some s ↔ j = .ofString s := by
  cases j <;> simp [text?, ofString]

theorem word?_eq_some {j : Json} {n : Nat} :
    j.word? = some n ↔ n < 0x10000000000000000 ∧ j = .ofNat n := by
  cases j with
  | number number =>
    cases number with
    | integer i =>
      simp only [word?, ofNat, number.injEq, Number.integer.injEq, Bool.and_eq_true,
        decide_eq_true_eq, Option.ite_none_right_eq_some, Option.some.injEq]
      omega
    | other => simp [word?, ofNat]
  | _ => simp [word?, ofNat]

theorem int32?_eq_some {j : Json} {i : Int} :
    j.int32? = some i ↔ (-0x80000000 ≤ i ∧ i < 0x80000000) ∧ j = .number (.integer i) := by
  cases j with
  | number number =>
    cases number with
    | integer i =>
      simp only [int32?, number.injEq, Number.integer.injEq, Bool.and_eq_true, decide_eq_true_eq,
        Option.ite_none_right_eq_some, Option.some.injEq]
      omega
    | other => simp [int32?]
  | _ => simp [int32?]

def items? : Json → Option (List Json)
  | .array items => some items
  | _ => none

def isNull : Json → Bool
  | .null => true
  | _ => false

/-- The value of the last member with a given name. -/
def lastNamed? (members : List (Option String × Json)) (name : String) : Option Json :=
  (members.reverse.find? fun m => m.1 = some name).map Prod.snd

end Json

end Divergence
