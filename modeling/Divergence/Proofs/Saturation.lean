/-
# `Divergence.Proofs.Saturation` — which counts are too high

A count saturates if it is the size wherever the size is below the cap, and the cap from there on.
Sums, products and powers do.  A binomial coefficient does not always: the loop gives the cap as
soon as one of its products exceeds it, and its last product is the coefficient times its place, to
be divided by the place again.  So some coefficients below the cap are counted as the cap
(`binomial_eq_min_iff`), although none below `2 ^ 121` is.

A tree is counted too high if a choice in one of its nodes is, and nothing above that node makes
it irrelevant: no length of zero, no factor of zero, and no other part whose size is itself above
the cap.  `Overcounted` says so by sizes alone.  All other trees are counted as they should be
(`overcounts_iff`), and so is every base set that is counted at all.
-/
import Divergence.Proofs.Positions
import Divergence.Proofs.SpecConditions
import Mathlib.Algebra.Order.BigOperators.Group.List
import Mathlib.Data.Nat.Choose.Central

namespace Divergence

namespace Count

/-! ## Counts that are too high -/

/-- The cap is given for a size below it. -/
structure Overcounts (count size : Nat) : Prop where
  count_eq : count = cap
  size_lt : size < cap

theorem not_overcounts_min (size : Nat) : ¬ Overcounts (min size cap) size := by
  rintro ⟨hcount, hlt⟩
  omega

theorem not_overcounts_self (size : Nat) : ¬ Overcounts size size := by
  rintro ⟨hcount, hlt⟩
  exact absurd hcount (Nat.ne_of_lt hlt)

section Overcounts

variable {count size a b x y : Nat}

/-- There is nothing else that can be wrong with a count. -/
theorem Counts.eq_min_iff (h : Counts count size) (hle : count ≤ cap) :
    count = min size cap ↔ ¬ Overcounts count size := by
  constructor
  · rintro rfl
    exact not_overcounts_min size
  · intro hnot
    rcases h with rfl | ⟨rfl, -⟩
    · exact (Nat.min_eq_left hle).symm
    · exact (Nat.min_eq_right (Nat.not_lt.mp fun hlt => hnot ⟨rfl, hlt⟩)).symm

theorem Counts.eq_of_not_overcounts (h : Counts count size) (hlt : size < cap)
    (hnot : ¬ Overcounts count size) : count = size := by
  rcases h with heq | ⟨heq, -⟩
  · exact heq
  · exact absurd ⟨heq, hlt⟩ hnot

theorem Overcounts.two_pow_le (hover : Overcounts count size) (h : Counts count size) :
    2 ^ 64 ≤ size := by
  rcases h with rfl | ⟨-, hlarge⟩
  · exact absurd hover (not_overcounts_self count)
  · exact hlarge

theorem sumOver_eq (lengths : List Nat) (count : Nat → Nat) :
    sumOver lengths count = min (lengths.map count).sum cap := by
  have hfold (total : Nat) : lengths.foldl (fun acc n => add acc (count n)) (min total cap) =
      min (total + (lengths.map count).sum) cap := by
    induction lengths generalizing total with
    | nil => rfl
    | cons n lengths ih =>
      have hadd : add (min total cap) (count n) = min (total + count n) cap := by
        rw [add]
        omega
      rw [List.foldl_cons, hadd, ih, List.map_cons, List.sum_cons, Nat.add_assoc]
  have hzero := hfold 0
  rwa [Nat.zero_min, Nat.zero_add] at hzero

theorem le_sum_map {f : Nat → Nat} {lengths : List Nat} {n : Nat} (hn : n ∈ lengths) :
    f n ≤ (lengths.map f).sum :=
  List.le_sum_of_mem (List.mem_map_of_mem hn)

/-- A sum is too high if one of its terms is, and the terms are not above the cap together. -/
theorem overcounts_sumOver {count size : Nat → Nat} {lengths : List Nat}
    (h : ∀ n ∈ lengths, Counts (count n) (size n)) :
    Overcounts (sumOver lengths count) (lengths.map size).sum ↔
      (lengths.map size).sum < cap ∧ ∃ n ∈ lengths, Overcounts (count n) (size n) := by
  rw [sumOver_eq]
  constructor
  · rintro ⟨hcount, hlt⟩
    refine ⟨hlt, ?_⟩
    by_contra hnone
    have hexact : ∀ n ∈ lengths, count n = size n := fun n hn =>
      (h n hn).eq_of_not_overcounts (Nat.lt_of_le_of_lt (le_sum_map hn) hlt)
        fun hover => hnone ⟨n, hn, hover⟩
    rw [List.map_congr_left hexact, Nat.min_eq_left (Nat.le_of_lt hlt)] at hcount
    exact absurd hcount (Nat.ne_of_lt hlt)
  · rintro ⟨hlt, n, hn, hover⟩
    refine ⟨Nat.min_eq_right ?_, hlt⟩
    rw [← hover.count_eq]
    exact le_sum_map hn

theorem overcounts_power (h : Counts count size) {length : Nat} (hlt : size ^ length < cap) :
    Overcounts (power count length) (size ^ length) ↔ 0 < length ∧ Overcounts count size := by
  rcases Nat.eq_zero_or_pos length with rfl | hlength
  · rw [power_eq, Nat.pow_zero, Nat.pow_zero]
    exact iff_of_false (not_overcounts_min 1) fun h => absurd h.1 (Nat.lt_irrefl 0)
  have hbase : size < cap :=
    Nat.lt_of_le_of_lt (Nat.le_self_pow (Nat.ne_of_gt hlength) size) hlt
  constructor
  · intro hover
    refine ⟨hlength, ?_⟩
    by_contra hnot
    rw [h.eq_of_not_overcounts hbase hnot, power_eq] at hover
    exact not_overcounts_min _ hover
  · rintro ⟨-, rfl, -⟩
    exact ⟨power_cap hlength, hlt⟩

theorem mul_cap (h : Counts a x) (hx : x ≠ 0) : mul a cap = cap := by
  have ha : 0 < a := by
    rcases h with rfl | ⟨rfl, -⟩
    · exact Nat.pos_of_ne_zero hx
    · decide
  exact Nat.min_eq_right (Nat.le_mul_of_pos_left cap ha)

theorem mul_comm (a b : Nat) : mul a b = mul b a := by
  rw [mul, mul, Nat.mul_comm]

/-- A product is too high if a factor is, and the other does not make it zero. -/
theorem overcounts_mul (ha : Counts a x) (hb : Counts b y) (hlt : x * y < cap) :
    Overcounts (mul a b) (x * y) ↔ Overcounts a x ∧ y ≠ 0 ∨ Overcounts b y ∧ x ≠ 0 := by
  constructor
  · intro hover
    have hlarge : 2 ^ 64 ≤ x * y := hover.two_pow_le (ha.mul hb)
    have hx : x ≠ 0 := by
      rintro rfl
      omega
    have hy : y ≠ 0 := by
      rintro rfl
      omega
    have hxlt : x < cap :=
      Nat.lt_of_le_of_lt (Nat.le_mul_of_pos_right x (Nat.pos_of_ne_zero hy)) hlt
    have hylt : y < cap :=
      Nat.lt_of_le_of_lt (Nat.le_mul_of_pos_left y (Nat.pos_of_ne_zero hx)) hlt
    by_contra hnone
    obtain ⟨hax, hby⟩ := not_or.mp hnone
    rw [ha.eq_of_not_overcounts hxlt fun h => hax ⟨h, hy⟩,
      hb.eq_of_not_overcounts hylt fun h => hby ⟨h, hx⟩] at hover
    exact not_overcounts_min (x * y) hover
  · rintro (⟨⟨rfl, -⟩, hy⟩ | ⟨⟨rfl, -⟩, hx⟩)
    · exact ⟨mul_comm cap b ▸ mul_cap hb hy, hlt⟩
    · exact ⟨mul_cap ha hx, hlt⟩

end Overcounts

/-! ## Choices -/

theorem overcounts_binomial_self (n k : Nat) :
    Overcounts (binomial n k) (n.choose k) ↔ n.choose k < cap ∧ cap < peak n k := by
  rw [binomial_eq]
  constructor
  · intro hover
    refine ⟨hover.size_lt, ?_⟩
    by_contra hwithin
    rw [if_neg hwithin] at hover
    exact not_overcounts_self _ hover
  · rintro ⟨hlt, hpeak⟩
    exact ⟨if_pos hpeak, hlt⟩

/-- A choice is too high if the number of items is, or if a product on the way exceeds the cap. -/
theorem overcounts_binomial {count items : Nat} (h : Counts count items) {k : Nat}
    (hk : k < 2 ^ 64) (hlt : items.choose k < cap) :
    Overcounts (binomial count k) (items.choose k) ↔
      0 < k ∧ Overcounts count items ∨ cap < peak items k := by
  have hcap : 2 ^ 64 ≤ cap := by decide
  rcases Nat.eq_zero_or_pos k with rfl | hpos
  · refine iff_of_false (fun hover => ?_) ?_
    · have hlarge := hover.two_pow_le (h.choose (.inr hk))
      rw [Nat.choose_zero_right] at hlarge
      omega
    · rintro (⟨hzero, -⟩ | hpeak)
      · exact absurd hzero (Nat.lt_irrefl 0)
      · rw [peak, Nat.zero_min, Nat.mul_zero] at hpeak
        exact absurd hpeak (Nat.not_lt_zero cap)
  by_cases hover : Overcounts count items
  · refine iff_of_true ⟨?_, hlt⟩ (.inl ⟨hpos, hover⟩)
    rw [hover.count_eq, binomial_cap hpos hk]
  · -- of so many items as the cap there are no fewer choices, except of none or of all
    have hitems : items < cap := by
      by_contra hlarge
      have hle : items ≤ items.choose k := le_choose hpos (by omega)
      omega
    rw [h.eq_of_not_overcounts hitems hover, overcounts_binomial_self, and_iff_right hlt,
      or_iff_right fun hitems => not_overcounts_self items hitems.2]

theorem binomial_le_cap (n k : Nat) : binomial n k ≤ cap := by
  rw [binomial_eq]
  split
  · exact Nat.le_refl cap
  · next h =>
    rcases Nat.eq_zero_or_pos (min k (n - k)) with hzero | hpos
    · have hone : n.choose k ≤ 1 := by
        rcases Nat.lt_or_ge n k with hlt | hle
        · rw [Nat.choose_eq_zero_of_lt hlt]
          exact Nat.zero_le 1
        · rw [← choose_min hle, hzero, Nat.choose_zero_right]
      exact hone.trans (by decide)
    · exact (Nat.le_mul_of_pos_right _ hpos).trans (Nat.not_lt.mp h)

/-- A count of choices saturates unless a product exceeds the cap and the coefficient does not. -/
theorem binomial_eq_min_iff (n k : Nat) :
    binomial n k = min (n.choose k) cap ↔ ¬ (n.choose k < cap ∧ cap < peak n k) := by
  rw [(counts_binomial n k).eq_min_iff (binomial_le_cap n k), overcounts_binomial_self]

/-- The loop takes fewer than 68 factors if the coefficient is below the cap, as that of 68 of 136
is above it. -/
theorem two_pow_le_choose_of_cap_lt_peak {n k : Nat} (h : cap < peak n k) :
    2 ^ 121 ≤ n.choose k := by
  obtain ⟨j, hpos, hhalf, hchoose, hover⟩ := exists_of_cap_lt_peak h
  rw [← hchoose]
  rcases Nat.lt_or_ge j 68 with hj | hj
  · have hle : n.choose j * j ≤ n.choose j * 67 := Nat.mul_le_mul_left _ (by omega)
    rw [cap] at hover
    omega
  · have hcentral : 2 ^ 128 ≤ (2 * 68).choose 68 := by
      have hfour := Nat.four_pow_le_two_mul_self_mul_centralBinom 68 (by omega)
      rw [← Nat.centralBinom_eq_two_mul_choose]
      omega
    have hwide : (2 * 68).choose 68 ≤ n.choose 68 := Nat.choose_le_choose 68 (by omega)
    have hlong : n.choose 68 ≤ n.choose j := choose_le_choose_of_le_half hj hhalf
    exact (by decide : 2 ^ 121 ≤ 2 ^ 128).trans (hcentral.trans (hwide.trans hlong))

end Count

/-! ## Trees -/

namespace DomainTree

open Divergence.Count

/-- Lists of scalars that are no longer than there are 64-bit words, and lengths that are such
words. -/
def wordSized : DomainProperty where
  int values := values.length ≤ 2 ^ 64
  float values := values.length ≤ 2 ^ 64
  bool values := values.length ≤ 2 ^ 64
  length lengths := ∀ n ∈ lengths, n < 2 ^ 64

/-- The tree is counted too high, said by sizes alone: it has fewer values than the cap, but in its
sum there is a choice whose loop exceeds the cap, or a part that is itself counted too high, and
nothing that makes it irrelevant. -/
def Overcounted : DomainTree → Prop
  | .int _ | .float _ | .bool _ | .str _ _ => False
  | .list element lengths =>
    (values (.list element lengths)).length < cap ∧
      ∃ n ∈ lengths.exhaustive, 0 < n ∧ element.Overcounted
  | .tuple element lengths =>
    (values (.tuple element lengths)).length < cap ∧
      ∃ n ∈ lengths.exhaustive, 0 < n ∧ element.Overcounted
  | .set element lengths =>
    (values (.set element lengths)).length < cap ∧
      ∃ n ∈ lengths.exhaustive, 0 < n ∧ element.Overcounted ∨ cap < peak element.values.length n
  | .dict key value lengths =>
    (values (.dict key value lengths)).length < cap ∧
      ∃ n ∈ lengths.exhaustive,
        (0 < n ∧ key.Overcounted ∨ cap < peak key.values.length n) ∧ value.values.length ^ n ≠ 0 ∨
          (0 < n ∧ value.Overcounted) ∧ key.values.length.choose n ≠ 0

theorem counts_of_wordSized {t : DomainTree} (h : t.Everywhere wordSized .exhaustive) :
    Counts t.exhaustiveCount t.values.length :=
  counts_exhaustiveCount (h.ownLengths_lt fun _ hlengths => hlengths)

theorem exhaustiveCount_le_cap {t : DomainTree} (h : t.Everywhere wordSized .exhaustive) :
    t.exhaustiveCount ≤ cap := by
  have hcap : 2 ^ 64 ≤ cap := by decide
  cases t with
  | int | float | bool => exact Nat.le_trans h hcap
  | str | list | tuple | set | dict =>
    rw [exhaustiveCount, sumOver_eq]
    exact Nat.min_le_right _ _

/-- A tree that memory can hold is counted too high exactly if its sizes say so. -/
theorem overcounts_iff {t : DomainTree} (h : t.Everywhere wordSized .exhaustive) :
    Overcounts t.exhaustiveCount t.values.length ↔ t.Overcounted := by
  induction t with
  | int | float | bool =>
    refine iff_of_false ?_ id
    rw [exhaustiveCount, values, List.length_map]
    exact not_overcounts_self _
  | str alphabet lengths =>
    refine iff_of_false ?_ id
    rw [exhaustiveCount, values, List.length_map, length_flatMap_power,
      overcounts_sumOver fun n _ => counts_power _ n]
    rintro ⟨-, n, -, hover⟩
    rw [power_eq] at hover
    exact not_overcounts_min _ hover
  | list element lengths ih | tuple element lengths ih =>
    have helement := counts_of_wordSized h.1
    rw [Overcounted, ← ih h.1]
    rw [exhaustiveCount, values, List.length_map, length_flatMap_power,
      overcounts_sumOver fun n _ => helement.pow n]
    refine and_congr_right fun hlt => exists_congr fun n => and_congr_right fun hn => ?_
    exact overcounts_power helement (Nat.lt_of_le_of_lt (le_sum_map hn) hlt)
  | set element lengths ih =>
    have helement := counts_of_wordSized h.1
    have hwords : ∀ n ∈ lengths.exhaustive, n < 2 ^ 64 := h.2
    rw [Overcounted, ← ih h.1]
    rw [exhaustiveCount, values, List.length_map, length_flatMap_combinations,
      overcounts_sumOver fun n hn => helement.choose (.inr (hwords n hn))]
    refine and_congr_right fun hlt => exists_congr fun n => and_congr_right fun hn => ?_
    have hchoose : element.values.length.choose n < cap :=
      Nat.lt_of_le_of_lt (le_sum_map (f := element.values.length.choose) hn) hlt
    exact overcounts_binomial helement (hwords n hn) hchoose
  | dict key value lengths ihk ihv =>
    have hkey := counts_of_wordSized h.1
    have hvalue := counts_of_wordSized h.2.1
    have hwords : ∀ n ∈ lengths.exhaustive, n < 2 ^ 64 := h.2.2
    rw [Overcounted, ← ihk h.1, ← ihv h.2.1]
    rw [exhaustiveCount, values, List.length_flatMap]
    simp only [length_dictionaries]
    rw [overcounts_sumOver fun n hn => (hkey.choose (.inr (hwords n hn))).mul (hvalue.pow n)]
    refine and_congr_right fun hlt => exists_congr fun n => and_congr_right fun hn => ?_
    have hproduct : key.values.length.choose n * value.values.length ^ n < cap :=
      Nat.lt_of_le_of_lt
        (le_sum_map (f := fun n => key.values.length.choose n * value.values.length ^ n) hn) hlt
    rw [overcounts_mul (hkey.choose (.inr (hwords n hn))) (hvalue.pow n) hproduct]
    -- what the other factor does not make zero is below the cap with the product
    refine or_congr (and_congr_left fun hpower => ?_) (and_congr_left fun hchoose => ?_)
    · have hle := Nat.le_mul_of_pos_right (key.values.length.choose n) (Nat.pos_of_ne_zero hpower)
      exact overcounts_binomial hkey (hwords n hn) (Nat.lt_of_le_of_lt hle hproduct)
    · have hle := Nat.le_mul_of_pos_left (value.values.length ^ n) (Nat.pos_of_ne_zero hchoose)
      exact overcounts_power hvalue (Nat.lt_of_le_of_lt hle hproduct)

/-- Only trees of very many values are counted too high. -/
theorem Overcounted.two_pow_le {t : DomainTree} (hover : t.Overcounted)
    (h : t.Everywhere wordSized .exhaustive) : 2 ^ 121 ≤ t.values.length := by
  have hpow {base n : Nat} (hn : 0 < n) (hbase : 2 ^ 121 ≤ base) : 2 ^ 121 ≤ base ^ n :=
    hbase.trans (Nat.le_self_pow (Nat.ne_of_gt hn) base)
  have hchoose {items n : Nat} (hn : 0 < n) (hword : n < 2 ^ 64) (hitems : 2 ^ 121 ≤ items) :
      2 ^ 121 ≤ items.choose n :=
    hitems.trans (le_choose hn (by omega))
  induction t with
  | int | float | bool | str => exact hover.elim
  | list element lengths ih | tuple element lengths ih =>
    obtain ⟨-, n, hn, hpos, helement⟩ := hover
    rw [values, List.length_map, length_flatMap_power]
    exact (hpow hpos (ih helement h.1)).trans (le_sum_map hn)
  | set element lengths ih =>
    obtain ⟨-, n, hn, hcause⟩ := hover
    rw [values, List.length_map, length_flatMap_combinations]
    refine Nat.le_trans ?_ (le_sum_map (f := element.values.length.choose) hn)
    rcases hcause with ⟨hpos, helement⟩ | hpeak
    · exact hchoose hpos (h.2 n hn) (ih helement h.1)
    · exact two_pow_le_choose_of_cap_lt_peak hpeak
  | dict key value lengths ihk ihv =>
    obtain ⟨-, n, hn, hcause⟩ := hover
    rw [values, List.length_flatMap]
    simp only [length_dictionaries]
    refine Nat.le_trans ?_
      (le_sum_map (f := fun n => key.values.length.choose n * value.values.length ^ n) hn)
    rcases hcause with ⟨hkeys, hpower⟩ | ⟨⟨hpos, hvalue⟩, hkeys⟩
    · refine Nat.le_trans ?_ (Nat.le_mul_of_pos_right _ (Nat.pos_of_ne_zero hpower))
      rcases hkeys with ⟨hpos, hkey⟩ | hpeak
      · exact hchoose hpos (h.2.2 n hn) (ihk hkey h.1)
      · exact two_pow_le_choose_of_cap_lt_peak hpeak
    · refine Nat.le_trans ?_ (Nat.le_mul_of_pos_left _ (Nat.pos_of_ne_zero hkeys))
      exact hpow hpos (ihv hvalue h.2.1)

/-- How the count of a tree follows from sizes. -/
structure CountedBySize (t : DomainTree) : Prop where
  eq_min_iff : t.exhaustiveCount = min t.values.length cap ↔ ¬ t.Overcounted
  of_overcounted :
    t.Overcounted → t.exhaustiveCount = cap ∧ 2 ^ 121 ≤ t.values.length ∧ t.values.length < cap

theorem countedBySize {t : DomainTree} (h : t.Everywhere wordSized .exhaustive) :
    t.CountedBySize where
  eq_min_iff := by
    rw [(counts_of_wordSized h).eq_min_iff (exhaustiveCount_le_cap h), overcounts_iff h]
  of_overcounted hover := by
    obtain ⟨hcount, hsize⟩ := (overcounts_iff h).mpr hover
    exact ⟨hcount, hover.two_pow_le h, hsize⟩

end DomainTree

/-! ## Domains that are read -/

theorem Binary64.numEq_self {x : Binary64} (h : x.isFinite = true) : x.numEq x = true := by
  have hnan : x.isNaN = false := by
    rw [isFinite, decide_eq_true_eq] at h
    exact decide_eq_false (Nat.not_lt.mpr (Nat.le_of_lt h))
  rw [numEq, hnan]
  simp

namespace SimpleDomain

variable {α : Type} [Scalar α] {values : List α}

theorem length_rangeValues_le {lower upper : Int} (h : rangeValues α lower upper = .ok values) :
    values.length ≤ maxRange := by
  have hlength := (rangeValues_eq_ok h).length_eq
  rw [List.length_range] at hlength
  unfold rangeValues at h
  split at h
  · cases h
  · split at h
    · cases h
    · omega

/-- There are no more different values than there are words to tell them apart by. -/
theorem length_le_of_unrepeated (word : α → Nat) (hword : ∀ a ∈ values, word a < 2 ^ 64)
    (hsame : ∀ a ∈ values, ∀ b ∈ values, word a = word b → Scalar.same a b = true)
    (h : Unrepeated values) : values.length ≤ 2 ^ 64 := by
  have hnodup : (values.map word).Nodup := by
    rw [List.Nodup, List.pairwise_map]
    refine h.imp_of_mem fun {a b} ha hb hapart heq => ?_
    rw [hsame a ha b hb heq] at hapart
    cases hapart
  have hsubset : values.map word ⊆ List.range (2 ^ 64) := by
    intro w hw
    obtain ⟨a, ha, rfl⟩ := List.mem_map.mp hw
    exact List.mem_range.mpr (hword a ha)
  have hlength := (List.subperm_of_subset hnodup hsubset).length_le
  rwa [List.length_map, List.length_range] at hlength

theorem length_le_of_read (word : α → Nat) {text : List Char} (h : read α text = .ok values)
    (hword : ∀ a ∈ values, word a < 2 ^ 64)
    (hsame : ∀ a ∈ values, ∀ b ∈ values, word a = word b → Scalar.same a b = true) :
    values.length ≤ 2 ^ 64 := by
  rcases read_cases h with ⟨-, hlist⟩ | ⟨lower, upper, -, hrange⟩
  · exact length_le_of_unrepeated word hword hsame (unrepeated_of_readList hlist)
  · exact (length_rangeValues_le hrange).trans (by decide)

end SimpleDomain

theorem DomainTree.wordSized_ofRead : wordSized.OfRead where
  int {_ values} h := by
    have hfits : ∀ i ∈ values, -2 ^ 63 ≤ i ∧ i < 2 ^ 63 := fun i hi =>
      SimpleDomain.fitsInt64_iff.mp (representable_ofRead.int h i hi)
    refine SimpleDomain.length_le_of_read (fun i => (i + 2 ^ 63).toNat) h ?_ ?_
    · intro i hi
      have hi := hfits i hi
      omega
    · intro i hi j hj heq
      have hi := hfits i hi
      have hj := hfits j hj
      exact beq_iff_eq.mpr (by omega)
  float {_ values} h := by
    refine SimpleDomain.length_le_of_read (fun x => x.bits.toNat) h ?_ ?_
    · exact fun x _ => x.bits.toNat_lt
    · intro x hx y _ heq
      have hsame : x = y := congrArg Binary64.mk (UInt64.toNat_inj.mp heq)
      exact hsame ▸ Binary64.numEq_self (representable_ofRead.float h x hx)
  bool {_ values} h := by
    refine SimpleDomain.length_le_of_read Bool.toNat h ?_ ?_
    · exact fun b _ => Nat.lt_trans b.toNat_lt (by decide)
    · intro a _ b _ heq
      exact beq_iff_eq.mpr (Function.LeftInverse.injective Bool.ofNat_toNat heq)
  length h n hn := Nat.lt_trans (representable_ofRead.length h n hn) (by decide)

/-! ## What is reported -/

namespace Spec

open Divergence.Count Divergence.DomainTree

/-- The counts that a specification can be refused with.  That of a node follows from sizes, and
that of the base set saturates: by then all nodes are within the limit. -/
inductive Reported (text : List Char) : Scope → Nat → Prop
  | node {p : ParameterTexts} {tree n : DomainTree} :
      p ∈ parameterTexts text → Describes p tree → n ∈ tree.nodes → n.CountedBySize →
      Reported text (.node n.kind) n.exhaustiveCount
  | baseSet {trees : List DomainTree} :
      List.Forall₂ Describes (parameterTexts text) trees →
      Reported text .baseSet (min (DomainTree.inputs trees).length cap)

variable {text : List Char} {scope : Scope} {count : Nat}

/-- Of the faults of a parameter only its size is one of a count. -/
theorem ParameterFault.exists_tree {p : ParameterTexts} {field : Field} {cause : SpecError}
    (h : ParameterFault p field cause) (hroot : cause.root = .tooManyValues scope count) :
    ∃ tree, Describes p tree ∧ tree.checkExpansion = .error (.tooManyValues scope count) := by
  rw [h.root_eq] at hroot
  subst hroot
  cases h with
  | type hcause => exact (Shape.read_errors _ _ hcause).elim
  | domain _ htree =>
    obtain ⟨_, _, -, hcause, heq⟩ := DomainTree.read_errors _ _ _ _ htree
    cases heq
    exact hcause.elim
  | size hshape htree hcheck =>
    exact ⟨_, bind_eq_ok.mpr ⟨_, inField_eq_ok.mpr hshape, htree⟩, hcheck⟩

theorem Reported.of_parameter {p : ParameterTexts} (hp : p ∈ parameterTexts text)
    {field : Field} {cause : SpecError} (h : ParameterFault p field cause)
    (hroot : cause.root = .tooManyValues scope count) : Reported text scope count := by
  obtain ⟨tree, htree, hcheck⟩ := h.exists_tree hroot
  obtain ⟨n, hn, heq⟩ := checkExpansion_eq_error hcheck
  cases heq
  have hwords := everywhere_of_describes wordSized_ofRead htree .exhaustive
  exact .node hp htree hn (countedBySize (everywhere_of_mem_nodes hwords hn))

/-- Parameters that are in order describe trees within the limit. -/
theorem Acceptable.within {p : ParameterTexts} {tree : DomainTree} (h : Acceptable p)
    (htree : Describes p tree) : tree.Within := by
  obtain ⟨tree', hread⟩ := (readParameter_ok_iff p).mpr h
  obtain ⟨htree', hwithin⟩ := readParameter_eq_ok.mp hread
  rwa [describes_rightUnique htree htree']

theorem Reported.of_baseSet {trees : List DomainTree}
    (h : List.Forall₂ Describes (parameterTexts text) trees)
    (hall : ∀ p ∈ parameterTexts text, Acceptable p) :
    Reported text .baseSet (min (trees.map exhaustiveCount).prod cap) := by
  have hexact : ∀ t ∈ trees, t.exhaustiveCount = t.values.length := by
    intro t ht
    obtain ⟨p, hp, htree⟩ := exists_mem_of_forall₂ h ht
    exact exhaustiveCount_eq ((hall p hp).within htree) t (mem_nodes_self t)
  rw [List.map_congr_left hexact, ← length_inputs]
  exact .baseSet h

theorem reported_of_read_error {e : SpecError} (h : read text = .error e)
    (hroot : e.root = .tooManyValues scope count) : Reported text scope count := by
  have hviolated := ((checks_read text).error e).mp h
  rw [conditions, memberConditions, firstViolated_cons, firstViolated_cons,
    firstViolated_append] at hviolated
  rcases hviolated with ⟨-, hfault⟩ | ⟨-, ⟨-, hfault⟩ | ⟨-, hbefore | ⟨hall, hlast⟩⟩⟩
  · cases hfault
    cases hroot
  · cases hfault
    cases hroot
  · obtain ⟨c, hc, hfault⟩ := hbefore.exists_mem
    simp only [List.mem_append, List.mem_map, List.mem_singleton] at hc
    rcases hc with ((rfl | ⟨field, -, rfl⟩) | rfl) | ⟨⟨p, index⟩, hp, rfl⟩
    · cases hfault
      cases hroot
    · cases hfault
      cases hroot
    · cases hfault
      cases hroot
    · obtain ⟨field, cause, rfl, hfault⟩ := hfault
      exact .of_parameter (List.mem_of_getElem? (List.mem_zipIdx_iff_getElem?.mp hp)) hfault hroot
  · obtain ⟨c, hc, hfault⟩ := hlast.exists_mem
    cases List.mem_singleton.mp hc
    obtain ⟨trees, htrees, rfl⟩ := hfault
    cases hroot
    refine .of_baseSet htrees fun p hp => ?_
    obtain ⟨index, hindex⟩ := List.mem_iff_getElem?.mp hp
    have hmem : parameter p index ∈ (parameterTexts text).zipIdx.map fun p => parameter p.1 p.2 :=
      List.mem_map.mpr ⟨(p, index), List.mem_zipIdx_iff_getElem?.mpr hindex, rfl⟩
    exact hall _ (List.mem_append_right _ hmem)

/-- A count is the size up to the cap, with one exception: where a coefficient is below the cap but
a product on the way to it is not, the count of the choice is the cap, and so is every count that
depends on it, up to sizes above the cap.  So it is with the counts of which errors speak.  No size
below `2 ^ 121` is counted wrongly. -/
theorem counts_saturate_iff (n k : Nat) (t : DomainTree) (text : List Char) :
    (binomial n k = min (n.choose k) cap ↔ ¬ (n.choose k < cap ∧ cap < peak n k)) ∧
    (t.Everywhere wordSized .exhaustive → t.CountedBySize) ∧
    ∀ e, read text = .error e → ∀ scope count, e.root = .tooManyValues scope count →
      Reported text scope count :=
  ⟨binomial_eq_min_iff n k, countedBySize, fun _ h _ _ hroot => reported_of_read_error h hroot⟩

/-- The sets of 65 of 130 numbers. -/
def halves : DomainTree :=
  .set (.int ⟨(List.range 130).map Int.ofNat, [1]⟩) ⟨[65], [1]⟩

/-- A specification whose one parameter is described by `halves`. -/
def halvesText : List Char :=
  ("\x7b\"fname\": \"f\", \"types\": [\"set(int)\"], \"exhaustive domain\": [\"65(0~129)\"], " ++
    "\"random domain\": [\"1(1)\"], \"num random\": 1\x7d").toList

theorem choose_halves : Nat.choose 130 65 = 95067625827960698145584333020095113100 := by
  rw [Nat.choose_eq_descFactorial_div_factorial]
  decide +kernel

theorem length_values_halves : halves.values.length = Nat.choose 130 65 := by
  rw [halves, values, List.length_map, length_flatMap_combinations, values, List.length_map,
    List.length_map, List.length_range, List.map_singleton, List.sum_singleton]

/-- The choice is below the cap, and the last product on the way to it is not. -/
theorem overshot_halves : Nat.choose 130 65 < cap ∧ cap < peak 130 65 := by
  rw [peak, choose_halves]
  decide

theorem wordSized_halves : halves.Everywhere wordSized .exhaustive := by
  refine ⟨?_, List.forall_mem_singleton.mpr (by decide)⟩
  show ((List.range 130).map Int.ofNat).length ≤ _
  rw [List.length_map, List.length_range]
  decide

theorem overcounted_halves : halves.Overcounted := by
  obtain ⟨hlt, hpeak⟩ := overshot_halves
  refine ⟨length_values_halves ▸ hlt, 65, List.mem_singleton_self 65, .inr ?_⟩
  rwa [values, List.length_map, List.length_map, List.length_range]

/-- The refusal of `halvesText`, with the cap for a count. -/
theorem read_halvesText : read halvesText =
    .error (.atParameter 0 (.inField .exhaustive (.tooManyValues (.node .set) cap))) :=
  map_eq_error.mp (by decide +kernel : (read halvesText).map (fun _ => ()) = _)

theorem counts_saturate_iff_halves :
    binomial 130 65 ≠ min (Nat.choose 130 65) cap ∧
    (halves.Everywhere wordSized .exhaustive ∧ halves.exhaustiveCount = cap ∧
      2 ^ 121 ≤ halves.values.length ∧ halves.values.length < cap) ∧
    ∃ e, read halvesText = .error e ∧ e.root = .tooManyValues (.node .set) cap ∧
      Reported halvesText (.node .set) cap := by
  obtain ⟨hchoice, htree, hreported⟩ := counts_saturate_iff 130 65 halves halvesText
  refine ⟨fun heq => hchoice.mp heq overshot_halves, ⟨wordSized_halves, ?_⟩, _, read_halvesText,
    rfl, hreported _ read_halvesText _ _ rfl⟩
  exact (htree wordSized_halves).of_overcounted overcounted_halves

/-- There are fewer halves than the cap, and the cap is what they are counted as. -/
theorem halves_not_saturated :
    binomial 130 65 ≠ min (Nat.choose 130 65) cap ∧
    halves.exhaustiveCount ≠ min halves.values.length cap ∧
    ∃ e, read halvesText = .error e ∧ e.root = .tooManyValues (.node .set) cap ∧
      halves.values.length < cap := by
  obtain ⟨hlt, hpeak⟩ := overshot_halves
  refine ⟨?_, ?_, _, read_halvesText, rfl, length_values_halves ▸ hlt⟩
  · intro heq
    exact (binomial_eq_min_iff 130 65).mp heq ⟨hlt, hpeak⟩
  · intro heq
    exact (countedBySize wordSized_halves).eq_min_iff.mp heq overcounted_halves

end Spec

end Divergence
