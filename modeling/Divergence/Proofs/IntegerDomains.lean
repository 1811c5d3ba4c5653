/-
# `Divergence.Proofs.IntegerDomains` — domains that are written with integers

Integers, lengths and truth values are all written with integers, and differ in
which of them they admit (`WrittenAsIntegers`).  What a range or a list of 64-bit
integers is read as is then the same for all three (`ReadsIntegers`): the values of
the integers, or an error that names the first integer that is not admitted.  Of a
range it is found out first whether its bounds are in order, and whether it is too
large.

The distance between two 64-bit integers need not be one, and nothing comes after
the greatest of them.  So the arithmetic of a range is done once more in words of
limited size (`checkedRange?`): the distance in one of 128 bits, and the integers of
the range one after the other in 64 bits.  It never leaves these words.
-/
import Divergence.Proofs.ListDomains
import Divergence.Proofs.Representable
import Mathlib.Data.Int.Range

namespace Divergence

open Divergence.Text

namespace SimpleDomain

variable {α : Type} [Scalar α] {admits : Int → Bool} {value : Int → α} {lower upper : Int}

/-! ## Ranges in words of limited size -/

/-- An integer that fits in a word of so many bits, one of them its sign. -/
def inWord? (bits : Nat) (i : Int) : Option Int :=
  if -2 ^ (bits - 1) ≤ i ∧ i < 2 ^ (bits - 1) then some i else none

/-- The integers up to `last` in 64-bit words, in no more than so many rounds.  The successor of
`last` is not asked for. -/
def countUp? (last : Int) : (rounds : Nat) → (first : Int) → Option (List Int)
  | 0, _ => none
  | rounds + 1, first =>
    if first < last then do
      let next ← inWord? 64 (first + 1)
      return first :: (← countUp? last rounds next)
    else some [first]

/-- The scalars of a range if no number on the way leaves its word. -/
def checkedRange? (α : Type) [Scalar α] (lower upper : Int) :
    Option (Except SpecError (List α)) :=
  if upper < lower then some (.error (.invertedRange lower upper))
  else do
    let distance ← inWord? 128 (upper - lower)
    if maxRange ≤ distance then return .error (.rangeTooLarge lower upper)
    else return (← countUp? upper maxRange lower).mapM (boundValue α)

theorem inWord?_of_fits {bits : Nat} {i : Int} (h : -2 ^ (bits - 1) ≤ i ∧ i < 2 ^ (bits - 1)) :
    inWord? bits i = some i :=
  if_pos h

theorem range_cons (h : lower < upper) : Int.range lower upper =
    lower :: Int.range (lower + 1) upper := by
  obtain ⟨n, hn⟩ : ∃ n : Nat, (upper - lower).toNat = n + 1 := ⟨(upper - lower).toNat - 1, by omega⟩
  have hn' : (upper - (lower + 1)).toNat = n := by omega
  rw [Int.range, hn, Int.range, hn', List.range_succ_eq_map, List.map_cons, List.map_map]
  congr 1
  · simp
  · refine List.map_congr_left fun k _ => ?_
    simp only [Function.comp_apply, Nat.succ_eq_add_one, Nat.cast_add, Nat.cast_one]
    omega

theorem range_self_succ (i : Int) : Int.range i (i + 1) = [i] := by
  simp [Int.range]

/-- Counting up stays in 64-bit words if both ends are in them. -/
theorem countUp?_eq {rounds : Nat} (hlower : -2 ^ 63 ≤ lower) (hupper : upper < 2 ^ 63)
    (hle : lower ≤ upper) (hrounds : upper - lower < rounds) :
    countUp? upper rounds lower = some (Int.range lower (upper + 1)) := by
  induction rounds generalizing lower with
  | zero => omega
  | succ rounds ih =>
    rw [countUp?]
    rcases Int.lt_or_eq_of_le hle with hlt | rfl
    · have hnext : inWord? 64 (lower + 1) = some (lower + 1) := inWord?_of_fits ⟨by omega, by omega⟩
      rw [if_pos hlt, hnext, range_cons (by omega)]
      simp only [Option.bind_eq_bind, Option.bind_some]
      rw [ih (by omega) (by omega) (by omega)]
      rfl
    · rw [if_neg (Int.lt_irrefl _), range_self_succ]

/-- The distance is compared with the greatest number of integers that a range may have. -/
theorem maxRange_le_iff : (maxRange : Int) ≤ upper - lower ↔ 65536 < upper - lower + 1 := by
  rw [maxRange]
  omega

/-- The scalars of a range are those of its integers, unless its bounds are refused. -/
theorem rangeValues_eq (α : Type) [Scalar α] (lower upper : Int) :
    rangeValues α lower upper =
      if upper < lower then .error (.invertedRange lower upper)
      else if 65536 < upper - lower + 1 then .error (.rangeTooLarge lower upper)
      else (Int.range lower (upper + 1)).mapM (boundValue α) := by
  have hrange : Int.range lower (upper + 1) =
      (List.range (upper - lower + 1).toNat).map fun n => lower + Int.ofNat n := by
    have hcount : upper + 1 - lower = upper - lower + 1 := by omega
    rw [Int.range, hcount]
    rfl
  rw [rangeValues, hrange, List.mapM_map]
  simp only [maxRange_le_iff]
  rfl

/-- No number of a range leaves its word if its bounds have 64 bits. -/
theorem checkedRange?_eq (hlower : fitsInt64 lower = true) (hupper : fitsInt64 upper = true) :
    checkedRange? α lower upper = some (rangeValues α lower upper) := by
  obtain ⟨hlow, hlow'⟩ := fitsInt64_iff.mp hlower
  obtain ⟨hhigh', hhigh⟩ := fitsInt64_iff.mp hupper
  rw [checkedRange?, rangeValues_eq]
  split
  · rfl
  · next horder =>
    have hdistance : inWord? 128 (upper - lower) = some (upper - lower) :=
      inWord?_of_fits ⟨by omega, by omega⟩
    simp only [hdistance, Option.bind_eq_bind, Option.bind_some, maxRange_le_iff]
    split
    · rfl
    · next hsmall =>
      have hrounds : upper - lower < (maxRange : Int) :=
        Int.not_le.mp (mt maxRange_le_iff.mp hsmall)
      rw [countUp?_eq hlow hhigh (Int.not_lt.mp horder) hrounds]
      rfl

/-! ## The first integer that is refused -/

/-- The values, unless one of the integers is not admitted. -/
def ifAdmitted (admits : Int → Bool) (integers : List Int) (values : List α) :
    Except SpecError (List α) :=
  match integers.find? fun i => !admits i with
  | none => .ok values
  | some i => .error (invalid (Scalar.kind α) (ofInt i))

/-- A traversal stops at the first integer that is refused. -/
theorem mapM_eq_ifAdmitted {f : Int → Except SpecError α} {integers : List Int}
    (hf : ∀ i ∈ integers,
      f i = if admits i then .ok (value i) else .error (invalid (Scalar.kind α) (ofInt i))) :
    integers.mapM f = ifAdmitted admits integers (integers.map value) := by
  induction integers with
  | nil => rfl
  | cons i integers ih =>
    obtain ⟨hi, hrest⟩ := List.forall_mem_cons.mp hf
    rw [List.mapM_cons, hi, ih hrest, ifAdmitted, ifAdmitted, List.find?_cons]
    cases admits i with
    | false => rfl
    | true =>
      simp only [Bool.not_true]
      cases integers.find? fun i => !admits i <;> rfl

/-! ## Kinds that are written with integers -/

/-- The scalars of this kind are written with the integers that are admitted, and each of those
stands for a scalar of its own. -/
structure WrittenAsIntegers (α : Type) [Scalar α] (admits : Int → Bool) (value : Int → α) :
    Prop where
  ofBound? (i : Int) : Scalar.ofBound? i = if admits i then some (value i) else none
  ofLiteral? {i : Int} : fitsInt64 i = true →
    Scalar.ofLiteral? (ofInt i) = if admits i then some (value i) else none
  same {i j : Int} : admits i = true → admits j = true →
    Scalar.same (value i) (value j) = (i == j)

theorem written_int : WrittenAsIntegers Int (fun _ => true) id where
  ofBound? _ := rfl
  ofLiteral? h := int64?_ofInt h
  same _ _ := rfl

theorem length?_eq (i : Int) : length? i = if decide (0 ≤ i) then some i.toNat else none := by
  simp [length?]

theorem written_length : WrittenAsIntegers Nat (fun i => decide (0 ≤ i)) Int.toNat where
  ofBound? := length?_eq
  ofLiteral? {i} h := by
    show (int64? (ofInt i)).bind length? = _
    rw [int64?_ofInt h, Option.bind_some, length?_eq]
  same {i j} hi hj := by
    simp only [decide_eq_true_eq] at hi hj
    show (i.toNat == j.toNat) = (i == j)
    rw [Bool.eq_iff_iff, beq_iff_eq, beq_iff_eq]
    omega

theorem ofInt_eq_iff {i j : Int} : ofInt i = ofInt j ↔ i = j := by
  refine ⟨fun h => Option.some.inj ?_, congrArg ofInt⟩
  rw [← integer?_ofInt, h, integer?_ofInt]

theorem truth_eq (i : Int) :
    (if i = 0 then some false else if i = 1 then some true else none) =
      if decide (i = 0 ∨ i = 1) then some (decide (i = 1)) else none := by
  by_cases hzero : i = 0
  · rw [hzero]
    rfl
  · by_cases hone : i = 1
    · rw [hone]
      rfl
    · simp [hzero, hone]

theorem written_bool :
    WrittenAsIntegers Bool (fun i => decide (i = 0 ∨ i = 1)) (fun i => decide (i = 1)) where
  ofBound? := truth_eq
  ofLiteral? {i} _ := by
    have hzero : ['0'] = ofInt 0 := rfl
    have hone : ['1'] = ofInt 1 := rfl
    show (if ofInt i = ['0'] then some false else if ofInt i = ['1'] then some true else none) = _
    rw [hzero, hone, ← truth_eq]
    simp only [ofInt_eq_iff]
  same {i j} hi hj := by
    simp only [decide_eq_true_eq] at hi hj
    show (decide (i = 1) == decide (j = 1)) = (i == j)
    rcases hi with rfl | rfl <;> rcases hj with rfl | rfl <;> rfl

namespace WrittenAsIntegers

theorem boundValue_eq (h : WrittenAsIntegers α admits value) (i : Int) :
    boundValue α i =
      if admits i then .ok (value i) else .error (invalid (Scalar.kind α) (ofInt i)) := by
  rw [boundValue, h.ofBound?]
  cases admits i <;> rfl

/-- An entry of a list is read as a bound of a range is. -/
theorem entryValue_eq (h : WrittenAsIntegers α admits value) {i : Int} (hi : fitsInt64 i = true)
    {p : List Char} (hp : Padded (ofInt i) p) :
    IsEntry p ∧ entryValue α p =
      if admits i then .ok (value i) else .error (invalid (Scalar.kind α) (ofInt i)) := by
  obtain ⟨hentry, htrim⟩ := isEntry_of_plain (plain_of_int64? (int64?_ofInt hi)) hp
  refine ⟨hentry, ?_⟩
  rw [entryValue, htrim, h.ofLiteral? hi]
  cases admits i <;> rfl

/-- Values are the same where their integers are, so the same ones are dropped. -/
theorem distinctFrom_map (h : WrittenAsIntegers α admits value) {integers seen : List Int}
    (hseen : ∀ i ∈ seen, admits i = true) (hall : ∀ i ∈ integers, admits i = true) :
    distinctFrom Scalar.same (seen.map value) (integers.map value) =
      (distinctFrom (· == ·) seen integers).map value := by
  induction integers generalizing seen with
  | nil => rfl
  | cons i integers ih =>
    obtain ⟨hi, hrest⟩ := List.forall_mem_cons.mp hall
    have hknown : ((seen.map value).any fun y => Scalar.same y (value i)) =
        seen.any fun j => j == i := by
      rw [List.any_map, Bool.eq_iff_iff, List.any_eq_true, List.any_eq_true]
      refine exists_congr fun j => and_congr_right fun hj => ?_
      rw [Function.comp_apply, h.same (hseen j hj) hi]
    rw [List.map_cons, distinctFrom, distinctFrom, hknown]
    cases seen.any fun j => j == i with
    | true => exact ih hseen hrest
    | false =>
      rw [if_neg Bool.false_ne_true, if_neg Bool.false_ne_true, List.map_cons,
        ← ih (List.forall_mem_cons.mpr ⟨hi, hseen⟩) hrest, List.map_cons]

theorem distinctBy_map (h : WrittenAsIntegers α admits value) {integers : List Int}
    (hall : ∀ i ∈ integers, admits i = true) :
    distinctBy Scalar.same (integers.map value) = integers.eraseDups.map value := by
  rw [← distinctBy_eq_eraseDups]
  exact h.distinctFrom_map (fun i hi => absurd hi List.not_mem_nil) hall

end WrittenAsIntegers

/-! ## Texts of ranges -/

/-- The texts of a range: its bounds with a tilde between them, and with blanks around them. -/
def RangeText (lower upper : Int) (s : List Char) : Prop :=
  ∃ l u, Padded (ofInt lower) l ∧ Padded (ofInt upper) u ∧ s = l ++ '~' :: u

theorem rangeText_self (lower upper : Int) :
    RangeText lower upper (ofInt lower ++ '~' :: ofInt upper) :=
  ⟨_, _, padded_self _, padded_self _, rfl⟩

/-- A trimmed text is a range if a tilde stands between two parts without separators, the first
of which is not empty. -/
theorem readTrimmed_range {l u : List Char} (hne : l ≠ []) (hl : ∀ c ∈ l, c ∉ separators)
    (hu : ∀ c ∈ u, c ∉ separators) (hlower : int64? (trim l) = some lower)
    (hupper : int64? (trim u) = some upper) :
    readTrimmed α (l ++ '~' :: u) = rangeValues α lower upper := by
  have hnone {c : Char} (hc : c ∈ separators) : c ∉ l ∧ c ∉ u :=
    ⟨fun hmem => hl c hmem hc, fun hmem => hu c hmem hc⟩
  have htilde : ∀ c ∈ l, decide (c ≠ '~') = true := by
    intro c hc
    refine decide_eq_true ?_
    rintro rfl
    exact hl _ hc (by decide)
  have hbefore : (l ++ '~' :: u).takeWhile (· ≠ '~') = l := by
    rw [List.takeWhile_append_of_pos htilde]
    simp
  have hafter : ((l ++ '~' :: u).dropWhile (· ≠ '~')).drop 1 = u := by
    rw [List.dropWhile_append_of_pos htilde]
    simp
  have hhead : (l ++ '~' :: u).head? ≠ some '~' := by
    obtain ⟨c, rest, rfl⟩ := List.exists_cons_of_ne_nil hne
    rw [List.cons_append, List.head?_cons, ne_eq, Option.some.injEq]
    exact of_decide_eq_true (htilde c List.mem_cons_self)
  have hopen := hnone (c := '(') (by decide)
  have hclose := hnone (c := ')') (by decide)
  rw [readTrimmed, if_neg (by simp [hopen, hclose]),
    if_pos (by rw [Bool.and_eq_true]; exact ⟨by simp, bne_iff_ne.mpr hhead⟩), readRange, hbefore,
    hafter, readBound_eq_ok.mpr hlower, readBound_eq_ok.mpr hupper]
  rfl

/-- A text with a tilde between two entries is read as a range. -/
theorem read_range {l u : List Char} (hl : IsEntry l) (hu : IsEntry u)
    (hlower : int64? (trim l) = some lower) (hupper : int64? (trim u) = some upper) :
    read α (l ++ '~' :: u) = rangeValues α lower upper := by
  have htrim : trim (l ++ '~' :: u) = trimStart l ++ '~' :: trimEnd u := by
    rw [trim, trimStart_append hl.1, trimEnd_append (by simp [allBlank, isBlank]),
      trimEnd_cons (by decide)]
  have hne : trimStart l ≠ [] := by
    rw [ne_eq, trimStart_eq_nil, hl.1]
    exact Bool.false_ne_true
  rw [read, htrim]
  exact readTrimmed_range hne (fun c hc => hl.2 c ((padded_trimStart l).subset hc))
    (fun c hc => hu.2 c ((padded_trimEnd u).subset hc)) (by rwa [trim_trimStart])
    (by rwa [trim_trimEnd])

/-! ## Domains of integers -/

/-- How the texts of ranges and lists of 64-bit integers are read as scalars of a kind. -/
structure ReadsIntegers (α : Type) [Scalar α] (admits : Int → Bool) (value : Int → α) :
    Prop where
  /-- The bounds are looked at first, then the integers of the range, in order. -/
  range {lower upper : Int} {s : List Char} : fitsInt64 lower = true → fitsInt64 upper = true →
    RangeText lower upper s →
      read α s =
        if upper < lower then .error (.invertedRange lower upper)
        else if 65536 < upper - lower + 1 then .error (.rangeTooLarge lower upper)
        else
          ifAdmitted admits (Int.range lower (upper + 1))
            ((Int.range lower (upper + 1)).map value)
  /-- The arithmetic of a range stays within words of 64 and 128 bits. -/
  words {lower upper : Int} {s : List Char} : fitsInt64 lower = true → fitsInt64 upper = true →
    RangeText lower upper s → checkedRange? α lower upper = some (read α s)
  /-- The integers of a list are kept at their first places. -/
  list {integers : List Int} {s : List Char} : (∀ i ∈ integers, fitsInt64 i = true) →
    ListText ofInt integers s →
      read α s = ifAdmitted admits integers (integers.eraseDups.map value)

namespace WrittenAsIntegers

theorem read_rangeText (hlower : fitsInt64 lower = true) (hupper : fitsInt64 upper = true)
    {s : List Char} (hs : RangeText lower upper s) : read α s = rangeValues α lower upper := by
  obtain ⟨l, u, hl, hu, rfl⟩ := hs
  have hlower' := int64?_ofInt hlower
  have hupper' := int64?_ofInt hupper
  obtain ⟨hlentry, hltrim⟩ := isEntry_of_plain (plain_of_int64? hlower') hl
  obtain ⟨huentry, hutrim⟩ := isEntry_of_plain (plain_of_int64? hupper') hu
  exact read_range hlentry huentry (by rwa [hltrim]) (by rwa [hutrim])

theorem read_listText (h : WrittenAsIntegers α admits value) {integers : List Int}
    (hfits : ∀ i ∈ integers, fitsInt64 i = true) {s : List Char}
    (hs : ListText ofInt integers s) :
    read α s = ifAdmitted admits integers (integers.eraseDups.map value) := by
  obtain ⟨parts, hparts, hshape⟩ := hs
  have hentries := List.Forall₂.flip (((List.forall₂_and_left _ _).mpr ⟨hfits, hparts⟩).imp
    fun _ _ hp => h.entryValue_eq hp.1 hp.2)
  obtain ⟨hentry, hvalues⟩ := (List.forall₂_and_left _ _).mp hentries
  have hread : read α s = (parts.mapM (entryValue α)).map (distinctBy Scalar.same) := by
    refine read_entries hentry (hshape.imp_right fun ⟨hne, hbare⟩ => ⟨?_, hbare⟩) rfl
    rintro rfl
    exact hne (List.forall₂_nil_left_iff.mp hvalues)
  rw [hread, mapM_eq_mapM_of_forall₂ hvalues, mapM_eq_ifAdmitted fun i _ => rfl, ifAdmitted,
    ifAdmitted]
  cases hrefused : integers.find? fun i => !admits i with
  | some i => rfl
  | none =>
    have hall : ∀ i ∈ integers, admits i = true := by
      intro i hi
      have hnot := List.find?_eq_none.mp hrefused i hi
      rwa [Bool.not_eq_true, Bool.not_eq_false'] at hnot
    exact congrArg Except.ok (h.distinctBy_map hall)

theorem readsIntegers (h : WrittenAsIntegers α admits value) : ReadsIntegers α admits value where
  range hlower hupper hs := by
    rw [read_rangeText hlower hupper hs, rangeValues_eq,
      mapM_eq_ifAdmitted fun i _ => h.boundValue_eq i]
  words hlower hupper hs := by
    rw [read_rangeText hlower hupper hs, checkedRange?_eq hlower hupper]
  list hfits hs := h.read_listText hfits hs

end WrittenAsIntegers

/-- Integers of 64 bits are read exactly, in ranges and in lists: as integers all of them, as
lengths those that are not negative, and as truth values zero and one. -/
theorem reads_integers_exactly :
    ReadsIntegers Int (fun _ => true) id ∧
    ReadsIntegers Nat (fun i => decide (0 ≤ i)) Int.toNat ∧
    ReadsIntegers Bool (fun i => decide (i = 0 ∨ i = 1)) (fun i => decide (i = 1)) :=
  ⟨written_int.readsIntegers, written_length.readsIntegers, written_bool.readsIntegers⟩

/-- The whole of the 64-bit integers is too large, the last two of them are lengths, and of
several integers that are no truth values the first is named. -/
theorem reads_integers_exactly_extremes :
    read Int "-9223372036854775808~9223372036854775807".toList =
      .error (.rangeTooLarge (-9223372036854775808) 9223372036854775807) ∧
    read Nat "9223372036854775806~9223372036854775807".toList =
      .ok [9223372036854775806, 9223372036854775807] ∧
    read Bool "1,0,1,2,-3".toList = .error (.invalidValue .bool "2") := by
  obtain ⟨hint, hlength, hbool⟩ := reads_integers_exactly
  refine ⟨?_, ?_, ?_⟩
  · have hrange := @ReadsIntegers.range Int _ _ _ hint (-9223372036854775808) 9223372036854775807 _
      (by decide) (by decide) (rangeText_self _ _)
    rw [if_neg (by decide), if_pos (by decide)] at hrange
    exact hrange
  · have hrange := @ReadsIntegers.range Nat _ _ _ hlength 9223372036854775806 9223372036854775807 _
      (by decide) (by decide) (rangeText_self _ _)
    rw [if_neg (by decide), if_neg (by decide)] at hrange
    exact hrange
  · have hparts : List.Forall₂ (fun i p => Padded (ofInt i) p) [1, 0, 1, 2, -3]
        ([1, 0, 1, 2, -3].map ofInt) := by
      rw [List.forall₂_map_right_iff, List.forall₂_same]
      exact fun i _ => padded_self (ofInt i)
    exact hbool.list (by decide) ⟨_, hparts, .inr ⟨by decide, rfl⟩⟩

end SimpleDomain

end Divergence
