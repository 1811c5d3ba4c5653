/-
# `Divergence.Proofs.Offsets` — texts cut at byte offsets

Here texts are lists of characters, and what is before and after a character is
found along with it.  Where texts are kept as bytes it is an offset that is
found, and the text is cut there afterwards.  That goes wrong if the offset is
past the end, or inside of a character of several bytes.

`cut?` is cutting with this check: it has a result at the boundaries between
characters and nowhere else (`cut?_eq_some`).  A scan that goes along with the
offset can be stated with it, and proved never to cut anywhere else.
-/
import Divergence.Text.Utf8

namespace Divergence.Text

variable {n start stop : Nat} {c : Char} {s t a b : List Char}

/-! ## Sizes -/

theorem byteSize_append (s t : List Char) : byteSize (s ++ t) = byteSize s + byteSize t := by
  induction s with
  | nil => exact (Nat.zero_add _).symm
  | cons c s ih => rw [List.cons_append, byteSize, byteSize, ih, Nat.add_assoc]

theorem byteSize_reverse (s : List Char) : byteSize s.reverse = byteSize s := by
  induction s with
  | nil => rfl
  | cons c s ih =>
    rw [List.reverse_cons, byteSize_append, ih, byteSize, byteSize, byteSize, Nat.add_zero,
      Nat.add_comm]

/-- The size is the one that strings have. -/
theorem utf8ByteSize_ofList (s : List Char) : (String.ofList s).utf8ByteSize = byteSize s := by
  induction s with
  | nil => rfl
  | cons c s ih =>
    have hsplit : String.ofList (c :: s) = String.singleton c ++ String.ofList s := by
      rw [String.singleton_eq_ofList, ← String.ofList_append]
      rfl
    rw [hsplit, String.utf8ByteSize_append, String.utf8ByteSize_singleton, ih, byteSize]

theorem byteSize_le_of_start (h : s <+: t) : byteSize s ≤ byteSize t := by
  obtain ⟨rest, rfl⟩ := h
  rw [byteSize_append]
  exact Nat.le_add_right _ _

theorem byteSize_pos (h : s ≠ []) : 0 < byteSize s := by
  obtain ⟨c, rest, rfl⟩ := List.exists_cons_of_ne_nil h
  exact Nat.add_pos_left c.utf8Size_pos _

/-! ## Cutting -/

/-- A text in two parts, the first of so many bytes; none if no character ends there. -/
def cut? : (offset : Nat) → List Char → Option (List Char × List Char)
  | 0, s => some ([], s)
  | _ + 1, [] => none
  | offset + 1, c :: rest =>
    if c.utf8Size ≤ offset + 1 then
      (cut? (offset + 1 - c.utf8Size) rest).map fun (a, b) => (c :: a, b)
    else none

theorem cut?_cons (c : Char) (n : Nat) (s : List Char) :
    cut? (c.utf8Size + n) (c :: s) = (cut? n s).map fun p => (c :: p.1, p.2) := by
  have hpos := c.utf8Size_pos
  obtain ⟨k, hk⟩ : ∃ k, c.utf8Size + n = k + 1 := ⟨c.utf8Size + n - 1, by omega⟩
  have hrest : k + 1 - c.utf8Size = n := by omega
  rw [hk, cut?, if_pos (by omega), hrest]

theorem cut?_append (a b : List Char) : cut? (byteSize a) (a ++ b) = some (a, b) := by
  induction a with
  | nil => rw [List.nil_append, byteSize, cut?]
  | cons c a ih => rw [List.cons_append, byteSize, cut?_cons, ih, Option.map_some]

theorem cut?_eq_some : cut? n s = some (a, b) ↔ s = a ++ b ∧ byteSize a = n := by
  constructor
  · intro h
    fun_induction cut? n s generalizing a with
    | case1 s =>
      cases h
      exact ⟨rfl, rfl⟩
    | case2 offset => cases h
    | case3 offset c rest hle ih =>
      obtain ⟨⟨a', b'⟩, hrest, heq⟩ := Option.map_eq_some_iff.mp h
      cases heq
      obtain ⟨rfl, hsize⟩ := ih hrest
      exact ⟨rfl, by rw [byteSize, hsize]; omega⟩
    | case4 offset c rest hlt => cases h
  · rintro ⟨rfl, rfl⟩
    exact cut?_append a b

/-- The part of a text between two offsets; none if one of them is no boundary between
characters, or if they are in the wrong order. -/
def slice? (start stop : Nat) (s : List Char) : Option (List Char) := do
  let (before, _) ← cut? stop s
  let (_, part) ← cut? start before
  return part

theorem slice?_append (a s b : List Char) :
    slice? (byteSize a) (byteSize a + byteSize s) (a ++ s ++ b) = some s := by
  rw [slice?, ← byteSize_append, cut?_append]
  simp only [Option.bind_eq_bind, Option.bind_some, cut?_append]
  rfl

/-! ## Finding -/

/-- The offset of the first `c` of a text. -/
def offsetOf? (c : Char) : List Char → Option Nat
  | [] => none
  | x :: rest => if x = c then some 0 else (offsetOf? c rest).map (x.utf8Size + ·)

theorem offsetOf?_of_not_mem (h : c ∉ s) : offsetOf? c s = none := by
  induction s with
  | nil => rfl
  | cons x s ih =>
    obtain ⟨hx, hs⟩ := List.ne_and_not_mem_of_not_mem_cons h
    rw [offsetOf?, if_neg (Ne.symm hx), ih hs, Option.map_none]

theorem offsetOf?_append_cons (h : c ∉ s) (t : List Char) :
    offsetOf? c (s ++ c :: t) = some (byteSize s) := by
  induction s with
  | nil => rw [List.nil_append, offsetOf?, if_pos rfl, byteSize]
  | cons x s ih =>
    obtain ⟨hx, hs⟩ := List.ne_and_not_mem_of_not_mem_cons h
    rw [List.cons_append, offsetOf?, if_neg (Ne.symm hx), ih hs, Option.map_some, byteSize]

end Divergence.Text
