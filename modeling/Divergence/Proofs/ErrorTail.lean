/-
# `Divergence.Proofs.ErrorTail` — the end of the error output

Of what a crashed process wrote to its error output only the end is kept, as much
of it as fits in `tailBytes` and never a part of a character.  So up to three
bytes less than that may be kept (`lt_byteSize_fittingEnd`), and there is no
longer end that fits (`IsSuffix.fittingEnd`).

The cut is found by a search: it begins where just so many bytes are left and
goes on a byte at a time until it is between two characters.  `endFrom?` is this
search with its checks, which fails when it passes the end of the text, when it
cuts inside of a character, or when four attempts are not enough.
-/
import Divergence.Proofs.Offsets
import Divergence.Worker.Basic

namespace Divergence

namespace Text

variable {room n : Nat} {s t : List Char}

/-! ## The longest start that fits -/

theorem fitting_start (room : Nat) (s : List Char) : fitting room s <+: s := by
  fun_induction fitting room s with
  | case1 room => exact List.prefix_rfl
  | case2 room c rest _ ih => exact List.prefix_cons_inj c |>.mpr ih
  | case3 room c rest _ => exact List.nil_prefix

theorem byteSize_fitting_le (room : Nat) (s : List Char) : byteSize (fitting room s) ≤ room := by
  fun_induction fitting room s with
  | case1 room => exact Nat.zero_le _
  | case2 room c rest hfits ih =>
    rw [byteSize]
    omega
  | case3 room c rest _ => exact Nat.zero_le _

/-- No longer start fits. -/
theorem start_fitting (h : t <+: s) (hsize : byteSize t ≤ room) : t <+: fitting room s := by
  fun_induction fitting room s generalizing t with
  | case1 room => exact h
  | case2 room c rest hfits ih =>
    rcases List.prefix_cons_iff.mp h with rfl | ⟨t', rfl, ht'⟩
    · exact List.nil_prefix
    · rw [byteSize] at hsize
      exact List.prefix_cons_inj c |>.mpr (ih ht' (by omega))
  | case3 room c rest hfull =>
    rcases List.prefix_cons_iff.mp h with rfl | ⟨t', rfl, ht'⟩
    · exact List.nil_prefix
    · rw [byteSize] at hsize
      omega

/-- What does not fit is at most one character of four bytes too long. -/
theorem lt_byteSize_fitting (h : room < byteSize s) : room < byteSize (fitting room s) + 4 := by
  fun_induction fitting room s with
  | case1 room => exact absurd h (Nat.not_lt_zero _)
  | case2 room c rest hfits ih =>
    rw [byteSize] at h ⊢
    have hrest := ih (by omega)
    omega
  | case3 room c rest hfull =>
    have hchar := c.utf8Size_le_four
    omega

/-! ## The longest end that fits -/

theorem fittingEnd_suffix (room : Nat) (s : List Char) : fittingEnd room s <:+ s := by
  rw [fittingEnd, ← List.reverse_prefix, List.reverse_reverse]
  exact fitting_start room s.reverse

theorem byteSize_fittingEnd_le (room : Nat) (s : List Char) :
    byteSize (fittingEnd room s) ≤ room := by
  rw [fittingEnd, byteSize_reverse]
  exact byteSize_fitting_le room s.reverse

theorem suffix_fittingEnd (h : t <:+ s) (hsize : byteSize t ≤ room) : t <:+ fittingEnd room s := by
  rw [fittingEnd, ← List.reverse_prefix, List.reverse_reverse]
  exact start_fitting (List.reverse_prefix.mpr h) (by rwa [byteSize_reverse])

theorem fittingEnd_eq_self (h : byteSize s ≤ room) : fittingEnd room s = s :=
  (fittingEnd_suffix room s).eq_of_length_le (suffix_fittingEnd List.suffix_rfl h).length_le

theorem lt_byteSize_fittingEnd (h : room < byteSize s) :
    room < byteSize (fittingEnd room s) + 4 := by
  rw [fittingEnd, byteSize_reverse]
  exact lt_byteSize_fitting (by rwa [byteSize_reverse])

/-! ## The search for the cut -/

/-- The first boundary between characters from an offset on, found in so many attempts and
before the end of the text is passed. -/
def boundaryFrom? (s : List Char) : (attempts offset : Nat) → Option Nat
  | 0, _ => none
  | attempts + 1, offset =>
    if byteSize s < offset then none
    else if (cut? offset s).isSome then some offset
    else boundaryFrom? s attempts (offset + 1)

/-- The end of a text from the first boundary on after which no more than `room` bytes are
left. -/
def endFrom? (room : Nat) (s : List Char) : Option (List Char) := do
  let start ← boundaryFrom? s 4 (byteSize s - room)
  let (_, tail) ← cut? start s
  return tail

/-- The search ends at the boundary before which there is none. -/
theorem boundaryFrom?_eq {a : List Char} {attempts offset : Nat} (ha : a <+: s)
    (hle : offset ≤ byteSize a) (hlt : byteSize a < offset + attempts)
    (hfirst : ∀ k, offset ≤ k → k < byteSize a → cut? k s = none) :
    boundaryFrom? s attempts offset = some (byteSize a) := by
  have hend := byteSize_le_of_start ha
  induction attempts generalizing offset with
  | zero => omega
  | succ attempts ih =>
    rw [boundaryFrom?, if_neg (by omega)]
    rcases Nat.eq_or_lt_of_le hle with rfl | hbefore
    · obtain ⟨b, rfl⟩ := ha
      rw [cut?_append, Option.isSome_some, if_pos rfl]
    · rw [hfirst offset (Nat.le_refl _) hbefore, Option.isSome_none, if_neg Bool.false_ne_true]
      exact ih hbefore (by omega) fun k hk => hfirst k (by omega)

/-- The search finds the longest end that fits. -/
theorem endFrom?_eq (room : Nat) (s : List Char) :
    endFrom? room s = some (fittingEnd room s) := by
  obtain ⟨a, ha⟩ := fittingEnd_suffix room s
  have hsum : byteSize a + byteSize (fittingEnd room s) = byteSize s := by
    rw [← byteSize_append, ha]
  have hfits := byteSize_fittingEnd_le room s
  have hnear : byteSize a < byteSize s - room + 4 := by
    rcases Nat.lt_or_ge room (byteSize s) with hlong | hshort
    · have hlast := lt_byteSize_fittingEnd hlong
      omega
    · rw [fittingEnd_eq_self hshort] at hsum
      omega
  have hstart : boundaryFrom? s 4 (byteSize s - room) = some (byteSize a) := by
    refine boundaryFrom?_eq ⟨_, ha⟩ (by omega) hnear fun k hk hbefore => ?_
    -- what is left after an earlier boundary would be a longer end that fits
    cases hcut : cut? k s with
    | none => rfl
    | some parts =>
      obtain ⟨hs, hsize⟩ := cut?_eq_some.mp hcut
      have hparts : byteSize parts.1 + byteSize parts.2 = byteSize s := by
        rw [← byteSize_append, ← hs]
      have hlonger : parts.2 <:+ fittingEnd room s :=
        suffix_fittingEnd ⟨parts.1, hs.symm⟩ (by omega)
      obtain ⟨extra, hextra⟩ := hlonger
      have hcount : byteSize extra + byteSize parts.2 = byteSize (fittingEnd room s) := by
        rw [← byteSize_append, hextra]
      omega
  have hcut : cut? (byteSize a) s = some (a, fittingEnd room s) := cut?_eq_some.mpr ⟨ha.symm, rfl⟩
  rw [endFrom?, hstart, Option.bind_eq_bind, Option.bind_some, hcut]
  rfl

-- four bytes are left after the first, in the middle of the second character
example : endFrom? 4 "a😀b".toList = some ['b'] ∧ endFrom? 5 "a😀b".toList = some ['😀', 'b'] := by
  decide +kernel

end Text

namespace Worker

open Text

/-- All of the error output as text, without the blanks at its very end. -/
def errorText (stderr : List UInt8) : List Char :=
  trimEnd (decode stderr)

/-- What is kept of the error output is the longest end of its text that is at most 2048 bytes
long: all of it if it is not longer, and at least 2045 bytes if it is.  The search for the cut
comes to an end in the text, and what it finds is between two characters. -/
theorem stderrTail_longest (stderr : List UInt8) :
    (stderrTail stderr).toList <:+ errorText stderr ∧
    (stderrTail stderr).utf8ByteSize ≤ 2048 ∧
    (∀ s, s <:+ errorText stderr → byteSize s ≤ 2048 → s <:+ (stderrTail stderr).toList) ∧
    (byteSize (errorText stderr) ≤ 2048 → (stderrTail stderr).toList = errorText stderr) ∧
    (2048 < byteSize (errorText stderr) → 2045 ≤ (stderrTail stderr).utf8ByteSize) ∧
    endFrom? 2048 (errorText stderr) = some (stderrTail stderr).toList := by
  have htail : (stderrTail stderr).toList = fittingEnd 2048 (errorText stderr) :=
    String.toList_ofList
  have hsize : (stderrTail stderr).utf8ByteSize = byteSize (fittingEnd 2048 (errorText stderr)) :=
    utf8ByteSize_ofList _
  rw [htail, hsize]
  refine ⟨fittingEnd_suffix _ _, byteSize_fittingEnd_le _ _, ?_, fittingEnd_eq_self, ?_,
    endFrom?_eq _ _⟩
  · exact fun s hs hfits => suffix_fittingEnd hs hfits
  · intro hlong
    have hlast := lt_byteSize_fittingEnd hlong
    omega

end Worker

end Divergence
