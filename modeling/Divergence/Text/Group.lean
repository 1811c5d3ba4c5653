/-
# `Divergence.Text.Group` — parenthesised groups and top-level delimiters

Type tokens and domain strings nest by parentheses.  A group opens at the
first `(` of a text and closes at the `)` that matches it; that `)` has to
end the text, or be missing, in which case the group runs to the end.  So
`list(int` reads the same as `list(int)`.

A delimiter stands at top level when no parenthesis is open before it.
Closing parentheses that close nothing are ignored by that count.
-/

namespace Divergence.Text

/-- A text around its first group. -/
structure Group where
  /-- The text before the opening parenthesis. -/
  head : List Char
  /-- The text inside the group. -/
  inner : List Char
  deriving DecidableEq, Repr

/-- What a scan for a group finds. -/
inductive GroupScan where
  /-- There is no opening parenthesis. -/
  | plain
  | group (g : Group)
  /-- The group closes before the text ends. -/
  | textAfterClose
  deriving DecidableEq, Repr

/-- The text up to the parenthesis that closes `depth` open ones and one more, and the
text after that parenthesis if it exists. -/
def untilClose : Nat → List Char → List Char × Option (List Char)
  | _, [] => ([], none)
  | depth, c :: rest =>
    if c = '(' then
      let (inner, after) := untilClose (depth + 1) rest
      (c :: inner, after)
    else if c = ')' then
      match depth with
      | 0 => ([], some rest)
      | depth + 1 =>
        let (inner, after) := untilClose depth rest
        (c :: inner, after)
    else
      let (inner, after) := untilClose depth rest
      (c :: inner, after)

def beforeOpen (s : List Char) : List Char :=
  s.takeWhile (· ≠ '(')

/-- The text from the first opening parenthesis on, the parenthesis included. -/
def fromOpen (s : List Char) : List Char :=
  s.dropWhile (· ≠ '(')

/-- A text split at its first group. -/
def splitGroup (s : List Char) : GroupScan :=
  match fromOpen s with
  | [] => .plain
  | _ :: body =>
    match untilClose 0 body with
    | (inner, none) | (inner, some []) => .group ⟨beforeOpen s, inner⟩
    | (_, some (_ :: _)) => .textAfterClose

/-- A text split at the first `delimiter` that stands at top level, when `depth`
parentheses are open before the text. -/
def splitAtDepth (delimiter : Char) : Nat → List Char → Option (List Char × List Char)
  | _, [] => none
  | depth, c :: rest =>
    if c = '(' then
      (splitAtDepth delimiter (depth + 1) rest).map fun (a, b) => (c :: a, b)
    else if c = ')' then
      (splitAtDepth delimiter (depth - 1) rest).map fun (a, b) => (c :: a, b)
    else if c = delimiter && depth = 0 then some ([], rest)
    else (splitAtDepth delimiter depth rest).map fun (a, b) => (c :: a, b)

/-- A text split at the first `delimiter` that stands at top level. -/
def splitTopLevel (delimiter : Char) (s : List Char) : Option (List Char × List Char) :=
  splitAtDepth delimiter 0 s

/-! ## Lengths -/

theorem length_untilClose_le (depth : Nat) (s : List Char) :
    (untilClose depth s).1.length ≤ s.length := by
  fun_induction untilClose depth s <;> simp_all

theorem length_fromOpen_le (s : List Char) : (fromOpen s).length ≤ s.length := by
  induction s with
  | nil => simp [fromOpen]
  | cons c rest ih =>
    rw [fromOpen, List.dropWhile_cons]
    split
    · exact Nat.le_succ_of_le ih
    · exact Nat.le_refl _

/-- The inside of a group is shorter than the text. -/
theorem length_inner_lt {s : List Char} {g : Group} (h : splitGroup s = .group g) :
    g.inner.length < s.length := by
  have hs := length_fromOpen_le s
  unfold splitGroup at h
  split at h
  · cases h
  · next body hb =>
    have hu := length_untilClose_le 0 body
    rw [hb, List.length_cons] at hs
    split at h
    · next inner hi => rw [hi] at hu; cases h; exact Nat.lt_of_le_of_lt hu (by omega)
    · next inner hi => rw [hi] at hu; cases h; exact Nat.lt_of_le_of_lt hu (by omega)
    · cases h

/-- Both parts of a split are shorter than the text. -/
theorem length_splitAtDepth {delimiter : Char} {depth : Nat} {s a b : List Char}
    (h : splitAtDepth delimiter depth s = some (a, b)) :
    a.length + b.length + 1 = s.length := by
  induction s generalizing depth a b with
  | nil => simp [splitAtDepth] at h
  | cons c rest ih =>
    rw [splitAtDepth] at h
    split at h
    · obtain ⟨⟨a', b'⟩, h', heq⟩ := Option.map_eq_some_iff.mp h
      cases heq
      have := ih h'
      simp only [List.length_cons]; omega
    · split at h
      · obtain ⟨⟨a', b'⟩, h', heq⟩ := Option.map_eq_some_iff.mp h
        cases heq
        have := ih h'
        simp only [List.length_cons]; omega
      · split at h
        · cases h; simp
        · obtain ⟨⟨a', b'⟩, h', heq⟩ := Option.map_eq_some_iff.mp h
          cases heq
          have := ih h'
          simp only [List.length_cons]; omega

theorem length_splitTopLevel {delimiter : Char} {s a b : List Char}
    (h : splitTopLevel delimiter s = some (a, b)) : a.length + b.length + 1 = s.length :=
  length_splitAtDepth h

end Divergence.Text
