/-
# `Divergence.Proofs.Decoding` — where a decoded text can be taken apart

Decoding bytes that are no UTF-8 is not compatible with putting byte strings
together: the bytes that a first part ends in can be the start of a character
that the second part finishes.  It is where an ASCII byte stands between the two
(`decode_append_ascii`), since no character goes on with one: whatever was begun
before it becomes a replacement character, and decoding starts afresh after it.

It is also where the first part is the encoding of a text, which is read back as
the text (`decode_encode_append`).  So a line feed between bytes is one between
lines (`lines_append`), whatever the bytes are.
-/
import Divergence.Proofs.Blanks
import Divergence.Text.Utf8

namespace Divergence.Text

/-! ## ASCII bytes -/

/-- Only continuation bytes go on with a character that was begun. -/
def Owing (state : Option Partial) : Prop :=
  ∀ p, state = some p → 0x80 ≤ p.low

theorem owing_none : Owing none := by
  intro p hp
  cases hp

theorem owing_ofLead (b : Nat) : Owing (Partial.ofLead b) := by
  intro p hp
  unfold Partial.ofLead at hp
  split_ifs at hp <;> cases hp <;> simp

theorem owing_startByte (b : Nat) : Owing (startByte b).1 := by
  unfold startByte
  split
  · exact owing_none
  · split
    · next p hp => exact hp ▸ owing_ofLead b
    · exact owing_none

theorem owing_stepByte (state : Option Partial) (b : Nat) : Owing (stepByte state b).1 := by
  cases state with
  | none => exact owing_startByte b
  | some p =>
    simp only [stepByte]
    split
    · split
      · exact owing_none
      · intro q hq
        cases hq
        exact Nat.le_refl _
    · exact owing_startByte b

variable {state : Option Partial} {b : UInt8}

theorem decodeFrom_cons (state : Option Partial) (b : UInt8) (bytes : List UInt8) :
    decodeFrom state (b :: bytes) =
      (stepByte state b.toNat).2 ++ decodeFrom (stepByte state b.toNat).1 bytes := by
  cases state <;> rfl

/-- An ASCII byte ends what was begun as the end of the bytes would, and stands for itself. -/
theorem stepByte_ascii (h : Owing state) (hb : b.toNat < 0x80) :
    stepByte state b.toNat = (none, decodeFrom state [] ++ [Char.ofNat b.toNat]) := by
  cases state with
  | none => simp [stepByte, startByte, decodeFrom, hb]
  | some p =>
    have hlow : ¬ (p.low ≤ b.toNat) := Nat.not_le.mpr (Nat.lt_of_lt_of_le hb (h p rfl))
    simp [stepByte, startByte, decodeFrom, hb, hlow]

theorem decodeFrom_append_ascii (h : Owing state) (hb : b.toNat < 0x80)
    (before after : List UInt8) :
    decodeFrom state (before ++ b :: after) =
      decodeFrom state before ++ Char.ofNat b.toNat :: decode after := by
  induction before generalizing state with
  | nil =>
    rw [List.nil_append, decodeFrom_cons, stepByte_ascii h hb, List.append_assoc,
      List.singleton_append]
    rfl
  | cons x before ih =>
    rw [List.cons_append, decodeFrom_cons, decodeFrom_cons, ih (owing_stepByte state x.toNat),
      List.append_assoc]

/-- Bytes around an ASCII byte are decoded apart. -/
theorem decode_append_ascii (hb : b.toNat < 0x80) (before after : List UInt8) :
    decode (before ++ b :: after) = decode before ++ Char.ofNat b.toNat :: decode after :=
  decodeFrom_append_ascii owing_none hb before after

/-! ## Encoded texts -/

/-- The bytes of a text in UTF-8. -/
def encode (s : List Char) : List UInt8 :=
  s.flatMap String.utf8EncodeChar

variable {p : Partial} {rest : List UInt8}

theorem decode_lead (hb : 0x80 ≤ b.toNat) (hp : Partial.ofLead b.toNat = some p) :
    decode (b :: rest) = decodeFrom (some p) rest := by
  rw [decode, decodeFrom_cons, stepByte, startByte, if_neg (Nat.not_lt.mpr hb), hp]
  rfl

theorem decodeFrom_continuation {owed bits low high : Nat} (hlow : low ≤ b.toNat)
    (hhigh : b.toNat ≤ high) :
    decodeFrom (some ⟨owed + 1, low, high, bits⟩) (b :: rest) =
      decodeFrom (some ⟨owed, 0x80, 0xBF, bits * 64 + (b.toNat - 0x80)⟩) rest := by
  rw [decodeFrom_cons, stepByte, if_pos (by simp [hlow, hhigh])]
  rfl

theorem decodeFrom_last {bits low high : Nat} (hlow : low ≤ b.toNat) (hhigh : b.toNat ≤ high) :
    decodeFrom (some ⟨0, low, high, bits⟩) (b :: rest) =
      Char.ofNat (bits * 64 + (b.toNat - 0x80)) :: decode rest := by
  rw [decodeFrom_cons, stepByte, if_pos (by simp [hlow, hhigh])]
  rfl

theorem ofLead_two {b : Nat} (hlow : 0xC2 ≤ b) (hhigh : b ≤ 0xDF) :
    Partial.ofLead b = some ⟨0, 0x80, 0xBF, b - 0xC0⟩ := by
  simp [Partial.ofLead, hlow, hhigh]

theorem ofLead_three {b : Nat} (hlow : 0xE1 ≤ b) (hhigh : b ≤ 0xEF) (hne : b ≠ 0xED) :
    Partial.ofLead b = some ⟨1, 0x80, 0xBF, b - 0xE0⟩ := by
  have htwo : ¬ (b ≤ 0xDF) := by omega
  have hfirst : b ≠ 0xE0 := by omega
  simp [Partial.ofLead, htwo, hfirst, hne, hlow, hhigh]

theorem ofLead_four {b : Nat} (hlow : 0xF1 ≤ b) (hhigh : b ≤ 0xF3) :
    Partial.ofLead b = some ⟨2, 0x80, 0xBF, b - 0xF0⟩ := by
  have htwo : ¬ (b ≤ 0xDF) := by omega
  have hthree : ¬ (b ≤ 0xEF) := by omega
  have hne : b ≠ 0xE0 ∧ b ≠ 0xED ∧ b ≠ 0xF0 := by omega
  simp [Partial.ofLead, htwo, hthree, hne, hlow, hhigh]

/-- The second byte of a character of three is one that its first byte allows: the ranges rule
out overlong forms and surrogates, which no character has. -/
theorem exists_lead_three {v : Nat} (hlong : 0x800 ≤ v) (hshort : v < 0x10000)
    (hvalid : v < 0xD800 ∨ 0xDFFF < v) :
    ∃ low high, Partial.ofLead (v / 4096 + 0xE0) = some ⟨1, low, high, v / 4096⟩ ∧
      low ≤ v / 64 % 64 + 0x80 ∧ v / 64 % 64 + 0x80 ≤ high := by
  by_cases hfirst : v / 4096 = 0
  · exact ⟨0xA0, 0xBF, by rw [hfirst]; rfl, by omega, by omega⟩
  by_cases hsurrogates : v / 4096 = 0xD
  · exact ⟨0x80, 0x9F, by rw [hsurrogates]; rfl, by omega, by omega⟩
  refine ⟨0x80, 0xBF, ?_, by omega, by omega⟩
  rw [ofLead_three (by omega) (by omega) (by omega), Nat.add_sub_cancel]

/-- The same for a character of four: what is ruled out lies past the last code point. -/
theorem exists_lead_four {v : Nat} (hlong : 0x10000 ≤ v) (hshort : v < 0x110000) :
    ∃ low high, Partial.ofLead (v / 262144 + 0xF0) = some ⟨2, low, high, v / 262144⟩ ∧
      low ≤ v / 4096 % 64 + 0x80 ∧ v / 4096 % 64 + 0x80 ≤ high := by
  by_cases hfirst : v / 262144 = 0
  · exact ⟨0x90, 0xBF, by rw [hfirst]; rfl, by omega, by omega⟩
  by_cases hlast : v / 262144 = 4
  · exact ⟨0x80, 0x8F, by rw [hlast]; rfl, by omega, by omega⟩
  refine ⟨0x80, 0xBF, ?_, by omega, by omega⟩
  rw [ofLead_four (by omega) (by omega), Nat.add_sub_cancel]

section Sequences

variable {v : Nat} {b₁ b₂ b₃ b₄ : UInt8}

theorem decode_two (hlong : 0x80 ≤ v) (hshort : v < 0x800) (h₁ : b₁.toNat = v / 64 + 0xC0)
    (h₂ : b₂.toNat = v % 64 + 0x80) :
    decode (b₁ :: b₂ :: rest) = Char.ofNat v :: decode rest := by
  have hp := ofLead_two (b := v / 64 + 0xC0) (by omega) (by omega)
  have hbits : v / 64 * 64 + v % 64 = v := by omega
  rw [decode_lead (by omega) (h₁ ▸ hp), decodeFrom_last (by omega) (by omega), h₁, h₂,
    Nat.add_sub_cancel, Nat.add_sub_cancel, hbits]

theorem decode_three (hlong : 0x800 ≤ v) (hshort : v < 0x10000)
    (hvalid : v < 0xD800 ∨ 0xDFFF < v) (h₁ : b₁.toNat = v / 4096 + 0xE0)
    (h₂ : b₂.toNat = v / 64 % 64 + 0x80) (h₃ : b₃.toNat = v % 64 + 0x80) :
    decode (b₁ :: b₂ :: b₃ :: rest) = Char.ofNat v :: decode rest := by
  obtain ⟨low, high, hp, hlow, hhigh⟩ := exists_lead_three hlong hshort hvalid
  have hbits : (v / 4096 * 64 + v / 64 % 64) * 64 + v % 64 = v := by omega
  rw [decode_lead (by omega) (h₁ ▸ hp), decodeFrom_continuation (by omega) (by omega),
    decodeFrom_last (by omega) (by omega), h₂, h₃, Nat.add_sub_cancel, Nat.add_sub_cancel, hbits]

theorem decode_four (hlong : 0x10000 ≤ v) (hshort : v < 0x110000)
    (h₁ : b₁.toNat = v / 262144 + 0xF0) (h₂ : b₂.toNat = v / 4096 % 64 + 0x80)
    (h₃ : b₃.toNat = v / 64 % 64 + 0x80) (h₄ : b₄.toNat = v % 64 + 0x80) :
    decode (b₁ :: b₂ :: b₃ :: b₄ :: rest) = Char.ofNat v :: decode rest := by
  obtain ⟨low, high, hp, hlow, hhigh⟩ := exists_lead_four hlong hshort
  have hbits : ((v / 262144 * 64 + v / 4096 % 64) * 64 + v / 64 % 64) * 64 + v % 64 = v := by
    omega
  rw [decode_lead (by omega) (h₁ ▸ hp), decodeFrom_continuation (by omega) (by omega),
    decodeFrom_continuation (by omega) (by omega), decodeFrom_last (by omega) (by omega),
    h₂, h₃, h₄, Nat.add_sub_cancel, Nat.add_sub_cancel, Nat.add_sub_cancel, hbits]

end Sequences

theorem toNat_byte {n : Nat} (h : n < 0x100) : (UInt8.ofNat n).toNat = n := by
  rw [UInt8.toNat_ofNat']
  exact Nat.mod_eq_of_lt h

/-- The bytes of a character are read back as the character. -/
theorem decode_utf8EncodeChar_append (c : Char) (rest : List UInt8) :
    decode (String.utf8EncodeChar c ++ rest) = c :: decode rest := by
  have hvalid : c.toNat < 0xD800 ∨ 0xDFFF < c.toNat ∧ c.toNat < 0x110000 := c.valid
  have hval : c.val.toNat = c.toNat := rfl
  suffices h : decode (String.utf8EncodeChar c ++ rest) = Char.ofNat c.toNat :: decode rest by
    rwa [Char.ofNat_toNat] at h
  simp only [String.utf8EncodeChar, hval]
  generalize c.toNat = v at hvalid
  split
  · next hone =>
    have hb : (UInt8.ofNat v).toNat = v := toNat_byte (by omega)
    have happend := decode_append_ascii (b := UInt8.ofNat v) (by omega) [] rest
    rwa [hb] at happend
  split
  · next hone htwo =>
    have hlead : v / 64 % 32 = v / 64 := Nat.mod_eq_of_lt (by omega)
    exact decode_two (by omega) (by omega) (by rw [hlead, toNat_byte (by omega)])
      (toNat_byte (by omega))
  split
  · next hone htwo hthree =>
    have hlead : v / 4096 % 16 = v / 4096 := Nat.mod_eq_of_lt (by omega)
    exact decode_three (by omega) (by omega) (by omega) (by rw [hlead, toNat_byte (by omega)])
      (toNat_byte (by omega)) (toNat_byte (by omega))
  · next hone htwo hthree =>
    have hlead : v / 262144 % 8 = v / 262144 := Nat.mod_eq_of_lt (by omega)
    exact decode_four (by omega) (by omega) (by rw [hlead, toNat_byte (by omega)])
      (toNat_byte (by omega)) (toNat_byte (by omega)) (toNat_byte (by omega))

theorem decode_encode_append (s : List Char) (rest : List UInt8) :
    decode (encode s ++ rest) = s ++ decode rest := by
  induction s with
  | nil => rfl
  | cons c s ih =>
    rw [encode, List.flatMap_cons, List.append_assoc, decode_utf8EncodeChar_append, ← encode, ih,
      List.cons_append]

theorem decode_encode (s : List Char) : decode (encode s) = s := by
  have happend := decode_encode_append s []
  have hnil : decode [] = [] := rfl
  rwa [List.append_nil, hnil, List.append_nil] at happend

/-! ## Lines -/

theorem splitAt_append (c : Char) (s t : List Char) :
    splitAt c (s ++ c :: t) = splitAt c s ++ splitAt c t := by
  induction s with
  | nil => simp [splitAt]
  | cons x s ih =>
    rw [List.cons_append, splitAt, splitAt, ih]
    split
    · rw [List.cons_append]
    · cases hparts : splitAt c s with
      | nil => exact absurd hparts (splitAt_ne_nil c s)
      | cons part parts => rfl

/-- The lines of texts with a line feed between them are those of the first, all of them ended,
and then those of the second. -/
theorem lines_append (s t : List Char) :
    lines (s ++ '\n' :: t) = (splitAt '\n' s).map (dropFinal '\r') ++ lines t := by
  have hne := splitAt_ne_nil '\n' t
  simp only [lines, splitAt_append]
  rw [List.getLast?_append_of_ne_nil _ hne, List.dropLast_append_of_ne_nil hne, List.map_append,
    List.append_assoc]

end Divergence.Text
