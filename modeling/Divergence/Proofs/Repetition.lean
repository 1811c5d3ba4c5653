/-
# `Divergence.Proofs.Repetition` — which domains repeat a value

A comma list drops repetitions, whatever its scalars.  A range does not: it
repeats a value if two of its integers stand for the same scalar.  Integers,
truth values and lengths keep integers apart, so none of their domains repeats
anything.  Doubles do not.  A domain of doubles repeats a value exactly if it is
a range with two neighbouring integers that are rounded to the same double
(`unrepeated_iff`), which takes a bound beyond `2 ^ 53`.

This is decided for one simple domain first, and then carried through the tree
along `Reads`, which says what text each domain was read from.
-/
import Divergence.Proofs.Rounding
import Divergence.Proofs.Sides

namespace Divergence

open Divergence.Text

/-! ## First appearances -/

theorem pairwise_distinctFrom {α : Type} (same : α → α → Bool) (seen xs : List α) :
    (distinctFrom same seen xs).Pairwise (fun a b => same a b = false) ∧
      ∀ x ∈ distinctFrom same seen xs, ∀ y ∈ seen, same y x = false := by
  fun_induction distinctFrom same seen xs with
  | case1 seen => exact ⟨List.Pairwise.nil, fun x hx => absurd hx List.not_mem_nil⟩
  | case2 seen x xs _ ih => exact ih
  | case3 seen x xs hnew ih =>
    obtain ⟨hpairwise, hseen⟩ := ih
    refine ⟨List.pairwise_cons.mpr ⟨?_, hpairwise⟩, List.forall_mem_cons.mpr ⟨?_, ?_⟩⟩
    · intro y hy
      exact hseen y hy x List.mem_cons_self
    · intro y hy
      by_contra hsame
      rw [Bool.not_eq_false] at hsame
      exact hnew (List.any_eq_true.mpr ⟨y, hy, hsame⟩)
    · intro y hy z hz
      exact hseen y hy z (List.mem_cons_of_mem x hz)

namespace SimpleDomain

variable {α : Type} [Scalar α]

/-- No two values at different places are the same. -/
def Unrepeated (values : List α) : Prop :=
  values.Pairwise fun a b => Scalar.same a b = false

theorem unrepeated_distinctBy (values : List α) :
    Unrepeated (distinctBy Scalar.same values) :=
  (pairwise_distinctFrom Scalar.same [] values).1

/-! ## Lists -/

theorem unrepeated_of_readList {domain : List Char} {values : List α}
    (h : readList α domain = .ok values) : Unrepeated values := by
  unfold readList at h
  split at h
  · cases h
  · extract_lets entries at h
    split at h
    · cases h
    · split at h
      · cases h
        exact List.Pairwise.nil
      · obtain ⟨all, -, heq⟩ := bind_eq_ok.mp h
        cases heq
        exact unrepeated_distinctBy all

/-! ## Ranges -/

/-- The bounds of a simple domain that is a range. -/
def bounds? (text : List Char) : Option (Int × Int) :=
  let domain := trim text
  if '~' ∈ domain && domain.head? != some '~' then
    (int64? (trim (domain.takeWhile (· ≠ '~')))).bind fun lower =>
      (int64? (trim ((domain.dropWhile (· ≠ '~')).drop 1))).map fun upper => (lower, upper)
  else none

theorem readBound_eq_ok {domain text : List Char} {bound : Bound} {i : Int} :
    readBound domain bound text = .ok i ↔ int64? (trim text) = some i := by
  unfold readBound
  split
  · next j hj => rw [hj, Except.ok.injEq, Option.some.injEq]
  · next hnone => simp [hnone]

theorem boundValue_eq_ok {i : Int} {a : α} :
    boundValue α i = .ok a ↔ Scalar.ofBound? i = some a := by
  unfold boundValue
  split
  · next v hv => rw [hv, Except.ok.injEq, Option.some.injEq]
  · next hnone => simp [hnone]

/-- A range of a simple domain holds the scalars of its integers, in order. -/
theorem rangeValues_eq_ok {lower upper : Int} {values : List α}
    (h : rangeValues α lower upper = .ok values) :
    List.Forall₂ (fun n a => Scalar.ofBound? (lower + Int.ofNat n) = some a)
      (List.range (upper - lower + 1).toNat) values := by
  unfold rangeValues at h
  split at h
  · cases h
  · split at h
    · cases h
    · exact (mapM_eq_ok.mp h).imp fun n a hn => boundValue_eq_ok.mp hn

/-- A simple domain that is read is a list or a range. -/
theorem read_cases {text : List Char} {values : List α} (h : read α text = .ok values) :
    (bounds? text = none ∧ readList α (trim text) = .ok values) ∨
      ∃ lower upper, bounds? text = some (lower, upper) ∧
        rangeValues α lower upper = .ok values := by
  unfold read readTrimmed at h
  split at h
  · cases h
  · split at h
    · next htilde =>
      simp only [readRange, bind_eq_ok, readBound_eq_ok] at h
      obtain ⟨lower, hlower, upper, hupper, hvalues⟩ := h
      refine .inr ⟨lower, upper, ?_, hvalues⟩
      simp only [bounds?, if_pos htilde, hlower, hupper, Option.bind_some, Option.map_some]
    · next htilde =>
      exact .inl ⟨if_neg htilde, h⟩

/-- A range repeats no value if it keeps its integers apart. -/
theorem unrepeated_rangeValues_iff {lower upper : Int} {values : List α}
    (h : rangeValues α lower upper = .ok values) :
    Unrepeated values ↔
      ∀ i j, lower ≤ i → i < j → j ≤ upper → ∀ a b : α, Scalar.ofBound? i = some a →
        Scalar.ofBound? j = some b → Scalar.same a b = false := by
  have hall := rangeValues_eq_ok h
  have hlength : values.length = (upper - lower + 1).toNat := by
    rw [← hall.length_eq, List.length_range]
  have hget (n : Nat) (hn : n < values.length) :
      Scalar.ofBound? (lower + Int.ofNat n) = some values[n] := by
    have hget := hall.get (by rwa [List.length_range, ← hlength]) hn
    simpa using hget
  rw [Unrepeated, List.pairwise_iff_getElem]
  constructor
  · intro hvalues i j hi hij hj a b ha hb
    have hn : (i - lower).toNat < values.length := by omega
    have hm : (j - lower).toNat < values.length := by omega
    have hi' : lower + Int.ofNat (i - lower).toNat = i := by
      rw [Int.ofNat_eq_natCast]
      omega
    have hj' : lower + Int.ofNat (j - lower).toNat = j := by
      rw [Int.ofNat_eq_natCast]
      omega
    have ha' := hget _ hn
    have hb' := hget _ hm
    rw [hi', ha, Option.some.injEq] at ha'
    rw [hj', hb, Option.some.injEq] at hb'
    rw [ha', hb']
    exact hvalues _ _ hn hm (by omega)
  · intro hapart n m hn hm hnm
    have hlt : lower + Int.ofNat n < lower + Int.ofNat m := by
      rw [Int.ofNat_eq_natCast, Int.ofNat_eq_natCast]
      omega
    have hle : lower ≤ lower + Int.ofNat n := by
      rw [Int.ofNat_eq_natCast]
      omega
    have hupper : lower + Int.ofNat m ≤ upper := by
      rw [Int.ofNat_eq_natCast]
      omega
    exact hapart _ _ hle hlt hupper _ _ (hget n hn) (hget m hm)

/-! ## Kinds of scalar -/

/-- Scalars of this kind keep integers apart. -/
def KeepsApart (α : Type) [Scalar α] : Prop :=
  ∀ i j : Int, i < j → ∀ a b : α, Scalar.ofBound? i = some a → Scalar.ofBound? j = some b →
    Scalar.same a b = false

theorem keepsApart_int : KeepsApart Int := by
  intro i j hij a b ha hb
  cases ha
  cases hb
  exact beq_eq_false_iff_ne.mpr (by omega)

theorem keepsApart_bool : KeepsApart Bool := by
  intro i j hij a b ha hb
  simp only [Scalar.ofBound?] at ha hb
  split at ha
  · cases ha
    split at hb
    · omega
    · split at hb
      · cases hb
        rfl
      · cases hb
  · split at ha
    · split at hb
      · omega
      · split at hb
        · omega
        · cases hb
    · cases ha

theorem keepsApart_nat : KeepsApart Nat := by
  intro i j hij a b ha hb
  simp only [Scalar.ofBound?, length?] at ha hb
  split at ha
  · split at hb
    · cases ha
      cases hb
      exact beq_eq_false_iff_ne.mpr (by omega)
    · cases hb
  · cases ha

/-- Of such scalars no simple domain repeats a value. -/
theorem unrepeated_of_keepsApart (hapart : KeepsApart α) {text : List Char} {values : List α}
    (h : read α text = .ok values) : Unrepeated values := by
  rcases read_cases h with ⟨-, hlist⟩ | ⟨lower, upper, -, hrange⟩
  · exact unrepeated_of_readList hlist
  · rw [unrepeated_rangeValues_iff hrange]
    intro i j _ hij _ a b ha hb
    exact hapart i j hij a b ha hb

theorem unrepeated_lengths {text : List Char} {lengths : List Nat}
    (h : read Nat text = .ok lengths) : Unrepeated lengths :=
  unrepeated_of_keepsApart keepsApart_nat h

/-- If the domain is a range, no two neighbours in it are rounded to the same double. -/
def RoundsApart (text : List Char) : Prop :=
  ∀ lower upper, bounds? text = some (lower, upper) →
    ∀ i, lower ≤ i → i < upper → Binary64.ofInt i ≠ Binary64.ofInt (i + 1)

theorem unrepeated_float_iff {text : List Char} {values : List Binary64}
    (h : read Binary64 text = .ok values) : Unrepeated values ↔ RoundsApart text := by
  rcases read_cases h with ⟨hbounds, hlist⟩ | ⟨lower, upper, hbounds, hrange⟩
  · refine iff_of_true (unrepeated_of_readList hlist) ?_
    intro lower upper hsome
    rw [hbounds] at hsome
    cases hsome
  · have hsame (i j : Int) : (∀ a b : Binary64, Scalar.ofBound? i = some a →
        Scalar.ofBound? j = some b → Scalar.same a b = false) ↔
          Binary64.ofInt i ≠ Binary64.ofInt j := by
      rw [ne_eq, ← Binary64.numEq_ofInt, Bool.not_eq_true]
      constructor
      · intro hab
        exact hab _ _ rfl rfl
      · intro hne a b ha hb
        cases ha
        cases hb
        exact hne
    simp only [unrepeated_rangeValues_iff hrange, hsame, Binary64.ofInt_injOn_iff]
    constructor
    · intro hapart lower' upper' hsome
      rw [hbounds] at hsome
      cases hsome
      exact hapart
    · intro hapart
      exact hapart lower upper hbounds

/-- Between `-2 ^ 53` and `2 ^ 53` no two neighbours are rounded to the same double. -/
theorem roundsApart_of_bounds {text : List Char}
    (h : ∀ lower upper, bounds? text = some (lower, upper) →
      -2 ^ 53 ≤ lower ∧ upper ≤ 2 ^ 53) : RoundsApart text := by
  intro lower upper hsome i hlower hupper
  obtain ⟨hlow, hhigh⟩ := h lower upper hsome
  exact Binary64.ofInt_ne_of_le_two_pow (by omega) (by omega) (by omega)

end SimpleDomain

/-! ## Trees -/

namespace DomainTree

/-- No domain repeats a value. -/
def noRepetition : DomainProperty where
  int := SimpleDomain.Unrepeated
  float := SimpleDomain.Unrepeated
  bool := SimpleDomain.Unrepeated
  length := SimpleDomain.Unrepeated

/-- No domain repeats a value, except perhaps one of doubles. -/
def noExactRepetition : DomainProperty :=
  { noRepetition with float := fun _ => True }

/-- The texts of the domains of doubles in a domain string for a shape. -/
def floatTexts : Shape → List Char → List (List Char)
  | .int, _ | .bool, _ | .str _, _ => []
  | .float, s => [s]
  | .list element, s | .tuple element, s | .set element, s =>
    match splitContainer s with
    | .ok g => floatTexts element g.inner
    | .error _ => []
  | .dict key value, s =>
    match splitContainer s with
    | .ok g =>
      match splitEntry g.inner with
      | .ok (k, v) => floatTexts key k ++ floatTexts value v
      | .error _ => []
    | .error _ => []

theorem noExactRepetition_ofRead : noExactRepetition.OfRead where
  int := SimpleDomain.unrepeated_of_keepsApart SimpleDomain.keepsApart_int
  float _ := trivial
  bool := SimpleDomain.unrepeated_of_keepsApart SimpleDomain.keepsApart_bool
  length := SimpleDomain.unrepeated_lengths

/-- One side of a tree repeats no value if its domains of doubles do not. -/
theorem noRepetition_iff_of_reads {side : Side} {t : DomainTree} {s : List Char}
    (h : t.Reads side s) :
    t.Everywhere noRepetition side ↔
      ∀ text ∈ floatTexts t.shape s, SimpleDomain.RoundsApart text := by
  have hnone {p : List Char → Prop} : ∀ text ∈ ([] : List (List Char)), p text :=
    fun text htext => absurd htext List.not_mem_nil
  induction t generalizing s with
  | int =>
    exact iff_of_true (SimpleDomain.unrepeated_of_keepsApart SimpleDomain.keepsApart_int h) hnone
  | float =>
    rw [shape, floatTexts, List.forall_mem_singleton]
    exact SimpleDomain.unrepeated_float_iff h
  | bool =>
    exact iff_of_true (SimpleDomain.unrepeated_of_keepsApart SimpleDomain.keepsApart_bool h) hnone
  | str => exact iff_of_true (SimpleDomain.unrepeated_lengths h) hnone
  | list element _ ih | tuple element _ ih | set element _ ih =>
    obtain ⟨g, hg, helement, hhead⟩ := h
    simp only [shape, floatTexts, hg]
    exact (and_iff_left (SimpleDomain.unrepeated_lengths hhead)).trans (ih helement)
  | dict key value _ ihk ihv =>
    obtain ⟨g, k, v, hg, hentry, hkey, hvalue, hhead⟩ := h
    simp only [shape, floatTexts, hg, hentry, List.forall_mem_append]
    have hparts := (ihk hkey).and (ihv hvalue)
    have hlengths := SimpleDomain.unrepeated_lengths hhead
    exact (and_congr_right fun _ => and_iff_left hlengths).trans hparts

/-- In a tree that is read from two strings no domain of integers, truth values or lengths
repeats a value, on either side and at any depth.  Nor does a domain of doubles, unless it is
a range in which two neighbours are rounded to the same double; bounds up to `2 ^ 53` rule
that out. -/
theorem unrepeated_iff {shape : Shape} {x r : List Char} {t : DomainTree}
    (h : read shape x r = .ok t) :
    (∀ side, t.Everywhere noExactRepetition side) ∧
    ((∀ side, t.Everywhere noRepetition side) ↔
      ∀ text ∈ floatTexts shape x ++ floatTexts shape r, SimpleDomain.RoundsApart text) ∧
    ((∀ text ∈ floatTexts shape x ++ floatTexts shape r, ∀ lower upper,
        SimpleDomain.bounds? text = some (lower, upper) → -2 ^ 53 ≤ lower ∧ upper ≤ 2 ^ 53) →
      ∀ side, t.Everywhere noRepetition side) := by
  obtain ⟨rfl, hx, hr⟩ := read_eq_ok.mp h
  have hiff : (∀ side, t.Everywhere noRepetition side) ↔
      ∀ text ∈ floatTexts t.shape x ++ floatTexts t.shape r, SimpleDomain.RoundsApart text := by
    rw [List.forall_mem_append, ← noRepetition_iff_of_reads hx, ← noRepetition_iff_of_reads hr]
    constructor
    · intro hall
      exact ⟨hall .exhaustive, hall .random⟩
    · rintro ⟨hexhaustive, hrandom⟩ side
      cases side with
      | exhaustive => exact hexhaustive
      | random => exact hrandom
  refine ⟨?_, hiff, ?_⟩
  · intro side
    cases side with
    | exhaustive => exact everywhere_of_reads noExactRepetition_ofRead hx
    | random => exact everywhere_of_reads noExactRepetition_ofRead hr
  · intro hbounds
    rw [hiff]
    intro text htext
    exact SimpleDomain.roundsApart_of_bounds (hbounds text htext)

/-- The first two neighbours that are rounded to one double. -/
theorem neighbours_repeat :
    ∃ t, read .float "9007199254740992~9007199254740993".toList "[1]".toList = .ok t ∧
      ¬ t.Everywhere noRepetition .exhaustive := by
  refine ⟨.float ⟨[⟨0x4340000000000000⟩, ⟨0x4340000000000000⟩], [⟨0x3FF0000000000000⟩]⟩,
    by decide +kernel, ?_⟩
  show ¬ List.Pairwise _ _
  decide

/-- Lists of doubles from a range that ends where neighbours begin to be rounded together. -/
theorem unrepeated_up_to_two_pow :
    ∃ t, read (.list .float) "0~2(9007199254740990~9007199254740992)".toList
        "1([0.5,-0.0])".toList = .ok t ∧
      (∀ side, t.Everywhere noExactRepetition side) ∧
        ∀ side, t.Everywhere noRepetition side := by
  have hread : read (.list .float) "0~2(9007199254740990~9007199254740992)".toList
      "1([0.5,-0.0])".toList = .ok (.list (.float
        ⟨[⟨0x433FFFFFFFFFFFFE⟩, ⟨0x433FFFFFFFFFFFFF⟩, ⟨0x4340000000000000⟩],
          [⟨0x3FE0000000000000⟩, ⟨0x8000000000000000⟩]⟩) ⟨[0, 1, 2], [1]⟩) := by
    decide +kernel
  obtain ⟨hexact, -, hbounds⟩ := unrepeated_iff hread
  refine ⟨_, hread, hexact, hbounds ?_⟩
  have htexts : floatTexts (.list .float) "0~2(9007199254740990~9007199254740992)".toList ++
      floatTexts (.list .float) "1([0.5,-0.0])".toList =
        ["9007199254740990~9007199254740992".toList, "[0.5,-0.0]".toList] := by
    decide +kernel
  have hrange : SimpleDomain.bounds? "9007199254740990~9007199254740992".toList =
      some (9007199254740990, 9007199254740992) := by
    decide +kernel
  have hlist : SimpleDomain.bounds? "[0.5,-0.0]".toList = none := by decide +kernel
  rw [htexts, List.forall_mem_cons, List.forall_mem_singleton, hrange, hlist]
  constructor
  · intro lower upper heq
    cases heq
    decide
  · intro lower upper heq
    cases heq

end DomainTree

end Divergence
