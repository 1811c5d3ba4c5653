/-
# `Divergence.Proofs.Literals` — what scalars are written with

Whatever text is read as a scalar, of any kind, is written with digits, signs,
points and the letter of an exponent.  None of these is blank and none has a
meaning in a domain string, so a literal stands in a list, or in a group, as it
is (`PlainScalar`).

Integers are read back from their own text.
-/
import Divergence.SimpleDomain
import Mathlib.Data.List.TakeWhile

namespace Divergence

open Divergence.Text

/-! ## Plain characters -/

/-- The characters that have a meaning in domain strings. -/
def separators : List Char :=
  ['(', ')', '[', ']', ',', ':', '~']

/-- A character that is not blank and has no meaning of its own. -/
def isPlain (c : Char) : Bool :=
  !isBlank c && decide (c ∉ separators)

theorem isPlain_iff {c : Char} : isPlain c = true ↔ isBlank c = false ∧ c ∉ separators := by
  rw [isPlain, Bool.and_eq_true, Bool.not_eq_true', decide_eq_true_eq]

theorem not_mem_separators_of_isBlank {c : Char} (h : isBlank c = true) : c ∉ separators := by
  intro hmem
  have hnone : ∀ d ∈ separators, isBlank d = false := by simp [separators, isBlank]
  rw [hnone c hmem] at h
  cases h

theorem isPlain_of_isDigit {c : Char} (h : c.isDigit = true) : isPlain c = true := by
  obtain ⟨hlower, hupper⟩ := Char.isDigit_iff_toNat.mp h
  simp at hlower hupper
  have hblank : isBlank c = false := by
    simp [isBlank]
    omega
  have hseparator : c ∉ separators := by
    intro hmem
    have hnone : ∀ d ∈ separators, d.isDigit = false := by simp [separators]
    rw [hnone c hmem] at h
    cases h
  exact isPlain_iff.mpr ⟨hblank, hseparator⟩

/-- A text of plain characters with something in it. -/
def Plain (s : List Char) : Prop :=
  s ≠ [] ∧ ∀ c ∈ s, isPlain c = true

theorem plain_cons {c : Char} (hc : isPlain c = true) {s : List Char}
    (hs : ∀ c ∈ s, isPlain c = true) : Plain (c :: s) :=
  ⟨List.cons_ne_nil c s, List.forall_mem_cons.mpr ⟨hc, hs⟩⟩

/-! ## Integers -/

theorem plain_of_digits? {s : List Char} {n : Nat} (h : digits? s = some n) : Plain s := by
  unfold digits? at h
  split at h
  · cases h
  · next hgood =>
    simp at hgood
    exact ⟨hgood.1, fun c hc => isPlain_of_isDigit (hgood.2 c hc)⟩

theorem plain_of_integer? {s : List Char} {i : Int} (h : integer? s = some i) : Plain s := by
  unfold integer? at h
  split at h
  · obtain ⟨n, hn, -⟩ := Option.map_eq_some_iff.mp h
    exact plain_cons (by decide) (plain_of_digits? hn).2
  · obtain ⟨n, hn, -⟩ := Option.map_eq_some_iff.mp h
    exact plain_cons (by decide) (plain_of_digits? hn).2
  · obtain ⟨n, hn, -⟩ := Option.map_eq_some_iff.mp h
    exact plain_of_digits? hn

theorem plain_of_int64? {s : List Char} {i : Int} (h : int64? s = some i) : Plain s :=
  plain_of_integer? (Option.filter_eq_some_iff.mp h).1

theorem integer?_of_digits? {s : List Char} {n : Nat} (h : digits? s = some n) :
    integer? s = some (Int.ofNat n) := by
  unfold integer?
  split
  · simp [digits?] at h
  · simp [digits?] at h
  · rw [h]
    rfl

theorem integer?_ofInt (i : Int) : integer? (ofInt i) = some i := by
  unfold ofInt
  split
  · next hneg =>
    rw [integer?, digits?_ofNat, Option.map_some, Int.ofNat_eq_natCast,
      Int.ofNat_natAbs_of_nonpos (Int.le_of_lt hneg), Int.neg_neg]
  · next hnonneg =>
    rw [integer?_of_digits? (digits?_ofNat _), Int.ofNat_eq_natCast,
      Int.natAbs_of_nonneg (Int.not_lt.mp hnonneg)]

theorem int64?_ofInt {i : Int} (h : fitsInt64 i = true) : int64? (ofInt i) = some i := by
  rw [int64?, integer?_ofInt, Option.filter_some, if_pos h]

/-! ## Doubles -/

namespace Binary64

theorem plain_of_exponent? {s : List Char} {e : Int} (h : exponent? s = some e) :
    ∀ c ∈ s, isPlain c = true := by
  unfold exponent? at h
  split at h
  · exact fun c hc => absurd hc List.not_mem_nil
  · next c rest =>
    split at h
    · next hc =>
      refine List.forall_mem_cons.mpr ⟨?_, (plain_of_integer? h).2⟩
      simp at hc
      rcases hc with rfl | rfl <;> decide
    · cases h

theorem plain_of_decimal? {s : List Char} {d : Nat × Int} (h : decimal? s = some d) :
    Plain s := by
  -- digits are plain, so only what comes after them is in question
  have hsplit (r : List Char) (hr : ∀ c ∈ r.dropWhile Char.isDigit, isPlain c = true) :
      ∀ c ∈ r, isPlain c = true := by
    rw [← List.takeWhile_append_dropWhile (p := Char.isDigit) (l := r)]
    exact List.forall_mem_append.mpr
      ⟨fun c hc => isPlain_of_isDigit (List.mem_takeWhile_imp hc), hr⟩
  refine ⟨fun hnil => ?_, hsplit s ?_⟩
  · rw [hnil] at h
    cases h
  · unfold decimal? at h
    extract_lets whole rest at h
    split at h
    next fraction tail hfraction =>
    split at h
    · cases h
    · obtain ⟨e, he, -⟩ := Option.map_eq_some_iff.mp h
      have htail := plain_of_exponent? he
      change ∀ c ∈ rest, isPlain c = true
      clear_value rest
      split at hfraction
      · next after =>
        obtain ⟨-, rfl⟩ := Prod.mk.inj hfraction
        exact List.forall_mem_cons.mpr ⟨by decide, hsplit after htail⟩
      · obtain ⟨-, rfl⟩ := Prod.mk.inj hfraction
        exact htail

theorem isFinite_infinity (negative : Bool) : (infinity negative).isFinite = false := by
  cases negative <;> decide

theorem isFinite_quietNaN (negative : Bool) : (quietNaN negative).isFinite = false := by
  cases negative <;> decide

theorem plain_of_ofText? {s : List Char} {x : Binary64} (h : ofText? s = some x)
    (hfinite : x.isFinite = true) : Plain s := by
  unfold ofText? at h
  split at h
  next negative rest hsign =>
  extract_lets word at h
  have hrest : Plain rest := by
    split at h
    · cases h
      rw [isFinite_infinity] at hfinite
      cases hfinite
    · split at h
      · cases h
        rw [isFinite_quietNaN] at hfinite
        cases hfinite
      · obtain ⟨d, hd, -⟩ := Option.map_eq_some_iff.mp h
        exact plain_of_decimal? hd
  unfold takeSign at hsign
  split at hsign
  · cases hsign
    exact plain_cons (by decide) hrest.2
  · cases hsign
    exact plain_cons (by decide) hrest.2
  · cases hsign
    exact hrest

end Binary64

/-! ## Scalars -/

/-- A kind of scalar of which every text is plain. -/
class PlainScalar (α : Type) [Scalar α] : Prop where
  plain : ∀ {s : List Char} {v : α}, Scalar.ofLiteral? s = some v → Plain s

instance : PlainScalar Int where
  plain h := plain_of_int64? h

instance : PlainScalar Binary64 where
  plain h :=
    have ⟨htext, hfinite⟩ := Option.filter_eq_some_iff.mp h
    Binary64.plain_of_ofText? htext hfinite

instance : PlainScalar Bool where
  plain {s v} h := by
    change (if s = ['0'] then some false else if s = ['1'] then some true else none) = some v at h
    split at h
    · next hs =>
      subst hs
      exact plain_cons (by decide) fun c hc => absurd hc List.not_mem_nil
    · split at h
      · next hs =>
        subst hs
        exact plain_cons (by decide) fun c hc => absurd hc List.not_mem_nil
      · cases h

instance : PlainScalar Nat where
  plain h :=
    have ⟨_, hint, _⟩ := Option.bind_eq_some_iff.mp h
    plain_of_int64? hint

end Divergence
