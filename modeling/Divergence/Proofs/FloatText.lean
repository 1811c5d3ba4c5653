/-
# `Divergence.Proofs.FloatText` — doubles have different texts

The text of a finite double is a sign and a numeral, and the numeral is read as
a decimal of the same value as the one that was laid out: zeros that fill up to
the point, or stand after it, make no difference.  That value is in the interval
around the double, and in no other, so the text determines the double.

The numeral is of digits, a sign, a point and the letter of an exponent, and
has a point or an exponent, which integers have not.
-/
import Divergence.Proofs.Literals
import Divergence.Proofs.Spans

namespace Divergence.Binary64

open Divergence.Text

/-! ## Digits -/

/-- A run of characters of some kind is what is taken, if another one or none comes next. -/
theorem takeWhile_run {p : Char → Bool} {run rest : List Char} (hrun : ∀ c ∈ run, p c = true)
    (hrest : ∀ c ∈ rest.head?, p c = false) : (run ++ rest).takeWhile p = run := by
  rw [List.takeWhile_append_of_pos hrun]
  cases rest with
  | nil => exact List.append_nil run
  | cons c rest => rw [List.takeWhile_cons_of_neg (by simp [hrest c rfl]), List.append_nil]

theorem dropWhile_run {p : Char → Bool} {run rest : List Char} (hrun : ∀ c ∈ run, p c = true)
    (hrest : ∀ c ∈ rest.head?, p c = false) : (run ++ rest).dropWhile p = rest := by
  rw [List.dropWhile_append_of_pos hrun]
  cases rest with
  | nil => rfl
  | cons c rest => rw [List.dropWhile_cons_of_neg (by simp [hrest c rfl])]

abbrev Digits (s : List Char) : Prop :=
  ∀ c ∈ s, c.isDigit = true

/-- No digit comes next. -/
def Stops (s : List Char) : Prop :=
  ∀ c ∈ s.head?, c.isDigit = false

section Digits

variable {whole fraction tail : List Char}

theorem decimal?_point (hwhole : Digits whole) (hne : whole ≠ []) (hfraction : Digits fraction)
    (ht : Stops tail) :
    decimal? (whole ++ '.' :: (fraction ++ tail)) =
      (exponent? tail).map fun e =>
        (Nat.ofDigitChars 10 (whole ++ fraction) 0, e - (fraction.length : Int)) := by
  have hstop : Stops ('.' :: (fraction ++ tail)) := by
    intro c hc
    cases hc
    rfl
  simp only [decimal?, takeWhile_run hwhole hstop, dropWhile_run hwhole hstop,
    takeWhile_run hfraction ht, dropWhile_run hfraction ht]
  rw [if_neg (by simp [hne])]

theorem stops_nil : Stops [] :=
  fun _ hc => by cases hc

theorem exponent?_ofInt (e : Int) : exponent? ('e' :: Text.ofInt e) = some e := by
  rw [exponent?, if_pos (by decide), integer?_ofInt]

theorem stops_exponent (s : List Char) : Stops ('e' :: s) := by
  intro c hc
  cases hc
  rfl

theorem decimal?_exponent (hwhole : Digits whole) (hne : whole ≠ []) (e : Int) :
    decimal? (whole ++ 'e' :: Text.ofInt e) = some (Nat.ofDigitChars 10 whole 0, e) := by
  have hstop := stops_exponent (Text.ofInt e)
  simp only [decimal?, takeWhile_run hwhole hstop, dropWhile_run hwhole hstop]
  rw [if_neg (by simp [hne])]
  show (exponent? ('e' :: Text.ofInt e)).map
    (fun e => (Nat.ofDigitChars 10 (whole ++ []) 0, e - (([] : List Char).length : Int))) = _
  rw [exponent?_ofInt, Option.map_some, List.append_nil, List.length_nil, Int.natCast_zero,
    Int.sub_zero]

end Digits

/-! ## Zeros -/

theorem ofDigitChars_append_zeros (digits : List Char) (k : Nat) :
    Nat.ofDigitChars 10 (digits ++ List.replicate k '0') 0 =
      10 ^ k * Nat.ofDigitChars 10 digits 0 := by
  rw [Nat.ofDigitChars_append, Nat.ofDigitChars_replicate_zero]

theorem ofDigitChars_zeros_append (digits : List Char) (k : Nat) :
    Nat.ofDigitChars 10 (List.replicate k '0' ++ digits) 0 = Nat.ofDigitChars 10 digits 0 := by
  rw [Nat.ofDigitChars_append, Nat.ofDigitChars_replicate_zero, Nat.mul_zero]

/-- Zeros at the end of a decimal can be moved to its exponent. -/
theorem decimalValue_mul_pow (n k : Nat) (e : Int) :
    decimalValue (10 ^ k * n, e) = decimalValue (n, k + e) := by
  simp only [decimalValue]
  rw [zpow_add₀ (by norm_num), zpow_natCast]
  push_cast
  ring

theorem digits_replicate (k : Nat) : Digits (List.replicate k '0') := by
  intro c hc
  rw [List.eq_of_mem_replicate hc]
  rfl

/-! ## Layouts -/

/-- The number that digits stand for, with a point after the first `point` of them. -/
def pointedValue (digits : List Char) (point : Int) : ℚ :=
  decimalValue (Nat.ofDigitChars 10 digits 0, point - digits.length)

/-- A text is read as a decimal of a certain value. -/
def ReadsAs (s : List Char) (q : ℚ) : Prop :=
  ∃ d, decimal? s = some d ∧ decimalValue d = q

section Layout

variable {digits : List Char} {point : Int}

/-- The point stands among the digits. -/
theorem readsAs_among (hdigits : Digits digits) {p : Nat} (hp : 0 < p) (h : p < digits.length) :
    ReadsAs (digits.take p ++ '.' :: digits.drop p) (pointedValue digits p) := by
  have hwhole : Digits (digits.take p) := fun c hc => hdigits c (List.mem_of_mem_take hc)
  have hfraction : Digits (digits.drop p) := fun c hc => hdigits c (List.mem_of_mem_drop hc)
  have hne : digits.take p ≠ [] := by
    apply List.ne_nil_of_length_pos
    rwa [List.length_take_of_le (Nat.le_of_lt h)]
  have hread := decimal?_point hwhole hne hfraction stops_nil
  have hexponent : (0 : Int) - (digits.drop p).length = p - digits.length := by
    rw [List.length_drop]
    omega
  rw [List.append_nil, List.take_append_drop, exponent?, Option.map_some, hexponent] at hread
  exact ⟨_, hread, rfl⟩

/-- The point stands after the digits, which are filled up with zeros, and so does another
zero. -/
theorem readsAs_filled (hdigits : Digits digits) (hne : digits ≠ []) {p : Nat}
    (h : digits.length ≤ p) :
    ReadsAs (digits ++ List.replicate (p - digits.length) '0' ++ '.' :: ['0'])
      (pointedValue digits p) := by
  have hwhole : Digits (digits ++ List.replicate (p - digits.length) '0') :=
    List.forall_mem_append.mpr ⟨hdigits, digits_replicate _⟩
  have hread := decimal?_point hwhole (by simp [hne]) (digits_replicate 1) stops_nil
  have hnumber : Nat.ofDigitChars 10
      (digits ++ List.replicate (p - digits.length) '0' ++ List.replicate 1 '0') 0 =
        10 ^ (p - digits.length + 1) * Nat.ofDigitChars 10 digits 0 := by
    rw [List.append_assoc, List.replicate_append_replicate, ofDigitChars_append_zeros]
  rw [hnumber, exponent?, Option.map_some] at hread
  refine ⟨_, hread, ?_⟩
  rw [decimalValue_mul_pow, pointedValue]
  congr 2
  rw [List.length_replicate]
  omega

theorem readsAs_positional (hdigits : Digits digits) (hne : digits ≠ []) :
    ReadsAs (positional digits point) (pointedValue digits point) := by
  unfold positional
  split
  · next hsmall =>
    -- zeros stand before the digits
    have hzero : Digits ['0'] := digits_replicate 1
    have hfraction : Digits (List.replicate (-point).toNat '0' ++ digits) :=
      List.forall_mem_append.mpr ⟨digits_replicate _, hdigits⟩
    have hread := decimal?_point hzero (by simp) hfraction stops_nil
    have hnumber : Nat.ofDigitChars 10 (['0'] ++ (List.replicate (-point).toNat '0' ++ digits)) 0 =
        Nat.ofDigitChars 10 digits 0 := by
      show Nat.ofDigitChars 10 (List.replicate 1 '0' ++ _) 0 = _
      rw [ofDigitChars_zeros_append, ofDigitChars_zeros_append]
    have hexponent : (0 : Int) - (List.replicate (-point).toNat '0' ++ digits).length =
        point - digits.length := by
      rw [List.length_append, List.length_replicate]
      omega
    rw [List.append_nil, hnumber, exponent?, Option.map_some, hexponent] at hread
    exact ⟨_, hread, rfl⟩
  · next hlarge =>
    have hpoint : ((point.toNat : Nat) : Int) = point := Int.toNat_of_nonneg (by omega)
    rcases Nat.lt_or_ge point.toNat digits.length with h | h
    · have hrest : digits.drop point.toNat ≠ [] := by
        rw [ne_eq, List.drop_eq_nil_iff]
        omega
      have hread := readsAs_among hdigits (p := point.toNat) (by omega) h
      rw [hpoint] at hread
      simpa [Nat.min_eq_left (Nat.le_of_lt h), hrest] using hread
    · have hread := readsAs_filled hdigits hne h
      rw [hpoint] at hread
      simpa [List.take_of_length_le h, List.drop_eq_nil_of_le h] using hread

theorem readsAs_scientific (hdigits : Digits digits) (hne : digits ≠ []) :
    ReadsAs (scientific digits point) (pointedValue digits point) := by
  obtain ⟨c, rest, rfl⟩ := List.exists_cons_of_ne_nil hne
  obtain ⟨hc, hrest⟩ := List.forall_mem_cons.mp hdigits
  have hfirst : Digits [c] := List.forall_mem_singleton.mpr hc
  cases rest with
  | nil =>
    refine ⟨_, decimal?_exponent hfirst (by simp) (point - 1), ?_⟩
    rfl
  | cons d rest =>
    have hread := decimal?_point hfirst (by simp) hrest (stops_exponent (Text.ofInt (point - 1)))
    have hexponent : point - 1 - ((d :: rest).length : Int) =
        point - (c :: d :: rest).length := by
      simp only [List.length_cons]
      omega
    rw [exponent?_ofInt, Option.map_some, hexponent] at hread
    have htext : scientific (c :: d :: rest) point =
        [c] ++ '.' :: (d :: rest ++ 'e' :: Text.ofInt (point - 1)) := by
      simp [scientific]
    rw [htext]
    exact ⟨_, hread, rfl⟩

theorem readsAs_layout (hdigits : Digits digits) (hne : digits ≠ []) :
    ReadsAs (layout digits point) (pointedValue digits point) := by
  unfold layout
  split
  · exact readsAs_positional hdigits hne
  · exact readsAs_scientific hdigits hne

end Layout

/-! ## Characters -/

/-- A character that numbers are written with. -/
def isNumeral (c : Char) : Bool :=
  c.isDigit || decide (c ∈ ['-', '.', 'e'])

abbrev Numerals (s : List Char) : Prop :=
  ∀ c ∈ s, isNumeral c = true

/-- A point or an exponent, which texts of integers have not. -/
def HasMark (s : List Char) : Prop :=
  '.' ∈ s ∨ 'e' ∈ s

theorem numerals_of_digits {s : List Char} (h : Digits s) : Numerals s := by
  intro c hc
  rw [isNumeral, h c hc, Bool.true_or]

theorem numerals_of_all {s : List Char} (h : s.all isNumeral = true) : Numerals s :=
  List.all_eq_true.mp h

theorem digits_ofNat (n : Nat) : Digits (Text.ofNat n) :=
  fun _ hc => Nat.isDigit_of_mem_toDigits (by decide) (by decide) hc

theorem numerals_ofInt (i : Int) : Numerals (Text.ofInt i) := by
  unfold Text.ofInt
  have hdigits := numerals_of_digits (digits_ofNat i.natAbs)
  split
  · exact List.forall_mem_cons.mpr ⟨by decide, hdigits⟩
  · exact hdigits

theorem not_hasMark_ofInt (i : Int) : ¬ HasMark (Text.ofInt i) := by
  have hnone {c : Char} (hc : c.isDigit = false) : c ∉ Text.ofNat i.natAbs := by
    intro hmem
    rw [digits_ofNat i.natAbs c hmem] at hc
    cases hc
  unfold Text.ofInt HasMark
  split
  · simp [hnone]
  · simp [hnone]

section Layout

variable {digits : List Char} {point : Int}

theorem numerals_positional (hdigits : Digits digits) : Numerals (positional digits point) := by
  have hall := numerals_of_digits hdigits
  have hzeros (k : Nat) := numerals_of_digits (digits_replicate k)
  unfold positional
  split
  · exact List.forall_mem_append.mpr
      ⟨List.forall_mem_append.mpr ⟨numerals_of_all (by decide), hzeros _⟩, hall⟩
  · extract_lets whole fraction
    have hfraction : Numerals (if fraction.isEmpty then ['0'] else fraction) := by
      split
      · exact hzeros 1
      · exact fun c hc => hall c (List.mem_of_mem_drop hc)
    refine List.forall_mem_append.mpr ⟨List.forall_mem_append.mpr
      ⟨List.forall_mem_append.mpr ⟨?_, hzeros _⟩, numerals_of_all (by decide)⟩, hfraction⟩
    exact fun c hc => hall c (List.mem_of_mem_take hc)

theorem numerals_scientific (hdigits : Digits digits) : Numerals (scientific digits point) := by
  have hall := numerals_of_digits hdigits
  unfold scientific
  refine List.forall_mem_append.mpr ⟨List.forall_mem_append.mpr
    ⟨List.forall_mem_append.mpr ⟨?_, ?_⟩, numerals_of_all (by decide)⟩, numerals_ofInt _⟩
  · exact fun c hc => hall c (List.mem_of_mem_take hc)
  · split
    · exact fun c hc => absurd hc List.not_mem_nil
    · exact List.forall_mem_cons.mpr
        ⟨by decide, fun c hc => hall c (List.mem_of_mem_drop hc)⟩

theorem numerals_layout (hdigits : Digits digits) : Numerals (layout digits point) := by
  unfold layout
  split
  · exact numerals_positional hdigits
  · exact numerals_scientific hdigits

theorem hasMark_layout : HasMark (layout digits point) := by
  unfold layout
  split
  · left
    unfold positional
    split <;> simp
  · right
    simp [scientific]

end Layout

/-! ## Digits of a decimal -/

theorem exists_zeros (s : List Char) :
    ∃ k, s = (s.reverse.dropWhile (· = '0')).reverse ++ List.replicate k '0' := by
  have hsplit := List.takeWhile_append_dropWhile (p := (· = '0')) (l := s.reverse)
  have hzeros : s.reverse.takeWhile (· = '0') =
      List.replicate (s.reverse.takeWhile (· = '0')).length '0' :=
    List.eq_replicate_of_mem fun c hc => by simpa using List.mem_takeWhile_imp hc
  rw [hzeros] at hsplit
  refine ⟨(s.reverse.takeWhile (· = '0')).length, ?_⟩
  rw [← List.reverse_replicate, ← List.reverse_append, hsplit, List.reverse_reverse]

/-- The digits of a decimal that is not zero, without the zeros at their end, have its value. -/
theorem normalise_spec {n : Nat} (hn : n ≠ 0) (e : Int) :
    Digits (normalise (n, e)).1 ∧ (normalise (n, e)).1 ≠ [] ∧
      pointedValue (normalise (n, e)).1 (normalise (n, e)).2 = decimalValue (n, e) := by
  obtain ⟨k, hall⟩ := exists_zeros (Text.ofNat n)
  generalize hdigits : ((Text.ofNat n).reverse.dropWhile (· = '0')).reverse = digits at hall
  change (normalise (n, e)).1 = digits at hdigits
  have hpoint : (normalise (n, e)).2 = (digits.length + k : Nat) + e := by
    rw [← List.length_replicate (n := k) (a := '0'), ← List.length_append, ← hall]
    rfl
  have hnumber : n = 10 ^ k * Nat.ofDigitChars 10 digits 0 := by
    rw [← ofDigitChars_append_zeros, ← hall]
    exact Nat.ofDigitChars_ten_toDigits.symm
  rw [hdigits, hpoint]
  refine ⟨?_, ?_, ?_⟩
  · intro c hc
    exact digits_ofNat n c (hall ▸ List.mem_append_left _ hc)
  · rintro rfl
    exact hn (by rw [hnumber]; rfl)
  · rw [hnumber, decimalValue_mul_pow, pointedValue]
    congr 2
    push_cast
    omega

/-! ## Texts -/

/-- The text of a double without its sign. -/
def body (x : Binary64) : List Char :=
  if x.magnitude = 0 then "0.0".toList
  else layout (normalise x.shortest).1 (normalise x.shortest).2

theorem text_eq {x : Binary64} (h : x.isFinite = true) :
    x.text = (if x.negative then ['-'] else []) ++ x.body := by
  have hnan : ¬ x.isNaN = true := by
    simp only [isFinite, isNaN, decide_eq_true_eq] at h ⊢
    omega
  rw [text, if_neg hnan]
  simp only [h, Bool.not_true, Bool.false_eq_true, if_false, body]
  split
  · rfl
  · rfl

theorem ne_zero_of_near {k : Nat} {d : Nat × Int} (hk : k ≠ 0)
    (h : Near k (decimalValue d)) : d.1 ≠ 0 := by
  intro hzero
  have hvalue : decimalValue d = 0 := by rw [decimalValue, hzero, Nat.cast_zero, zero_mul]
  rw [hvalue] at h
  exact hk (near_unique near_zero h).symm

/-- The text of a double is read as a number in the interval around it. -/
theorem readsAs_body (x : Binary64) :
    ∃ q, ReadsAs x.body q ∧ Near x.magnitude q ∧ Numerals x.body ∧ HasMark x.body := by
  unfold body
  split
  · next hzero =>
    rw [hzero]
    have hread : ReadsAs "0.0".toList 0 := ⟨(0, -1), by decide, by simp [decimalValue]⟩
    exact ⟨0, hread, near_zero, numerals_of_all (by decide), by simp [HasMark]⟩
  · next hne =>
    have hnear := near_shortest hne
    obtain ⟨hdigits, hnonempty, hvalue⟩ :=
      normalise_spec (ne_zero_of_near hne hnear) x.shortest.2
    refine ⟨_, hvalue ▸ readsAs_layout hdigits hnonempty, hnear, numerals_layout hdigits,
      hasMark_layout⟩

/-- A text that is read as a decimal does not begin with a sign. -/
theorem ReadsAs.head_ne {s : List Char} {q : ℚ} (h : ReadsAs s q) : s.head? ≠ some '-' := by
  obtain ⟨d, hd, -⟩ := h
  intro hsign
  cases s with
  | nil => cases hsign
  | cons c s =>
    cases hsign
    cases hd

theorem magnitude_eq_of_body_eq {x y : Binary64} (h : x.body = y.body) :
    x.magnitude = y.magnitude := by
  obtain ⟨q, ⟨d, hd, hq⟩, hnear, -⟩ := readsAs_body x
  obtain ⟨q', ⟨d', hd', hq'⟩, hnear', -⟩ := readsAs_body y
  rw [h, hd'] at hd
  cases hd
  rw [← hq, hq'] at hnear
  exact near_unique hnear hnear'

/-- Finite doubles of one text are the same. -/
theorem text_inj {x y : Binary64} (hx : x.isFinite = true) (hy : y.isFinite = true)
    (h : x.text = y.text) : x = y := by
  obtain ⟨_, hreads, -⟩ := readsAs_body x
  obtain ⟨_, hreads', -⟩ := readsAs_body y
  rw [text_eq hx, text_eq hy] at h
  rw [← orderKey_inj, orderKey, orderKey]
  cases hnegative : x.negative <;> cases hnegative' : y.negative <;>
    simp only [hnegative, hnegative', if_true, if_false, Bool.false_eq_true, List.nil_append,
      List.singleton_append, List.cons.injEq, true_and] at h ⊢
  · rw [magnitude_eq_of_body_eq h]
  · rw [h] at hreads
    exact absurd rfl hreads.head_ne
  · rw [← h] at hreads'
    exact absurd rfl hreads'.head_ne
  · rw [magnitude_eq_of_body_eq h]

theorem numerals_text {x : Binary64} (h : x.isFinite = true) : Numerals x.text := by
  obtain ⟨-, -, -, hnumerals, -⟩ := readsAs_body x
  rw [text_eq h]
  refine List.forall_mem_append.mpr ⟨?_, hnumerals⟩
  split
  · exact numerals_of_all (by decide)
  · exact numerals_of_all (by decide)

theorem hasMark_text {x : Binary64} (h : x.isFinite = true) : HasMark x.text := by
  obtain ⟨-, -, -, -, hmark⟩ := readsAs_body x
  rw [text_eq h]
  exact hmark.imp (List.mem_append_right _) (List.mem_append_right _)

end Divergence.Binary64
