/-
# `Divergence.Proofs.Counts` — computed counts are numbers of values

The count of an expansion is computed with capped arithmetic, the expansion
itself is a list.  What relates the two is `Counts`: a count is the exact
size, or it is the cap and the size is far above every limit.  Sums, products,
powers and binomial coefficients all keep to it, the last although they may
give the cap for a size below the cap.

A capped base does no harm to a power.  But from a capped number of items the
count of a choice tells nothing if all of them may be chosen, so there lengths
have to be less than any number of items that is capped.
-/
import Divergence.DomainTree.Count
import Mathlib.Algebra.GroupWithZero.Nat
import Mathlib.Data.Nat.Choose.Basic

namespace Divergence

namespace Count

/-- What a count tells about a size. -/
def Counts (count size : Nat) : Prop :=
  count = size ∨ (count = cap ∧ 2 ^ 64 ≤ size)

theorem maxExhaustive_lt : maxExhaustive < 2 ^ 64 := by decide

theorem maxExhaustive_lt_cap : maxExhaustive < cap := by decide

theorem Counts.le_iff {count size : Nat} (h : Counts count size) :
    count ≤ maxExhaustive ↔ size ≤ maxExhaustive := by
  have hsize := maxExhaustive_lt
  have hcap := maxExhaustive_lt_cap
  rcases h with rfl | ⟨rfl, hlarge⟩
  · exact Iff.rfl
  · constructor
    · intro hle
      omega
    · intro hle
      omega

theorem Counts.eq_of_lt {count size : Nat} (h : Counts count size) (hlt : size < 2 ^ 64) :
    count = size := by
  rcases h with heq | ⟨-, hlarge⟩
  · exact heq
  · exact absurd hlt (Nat.not_lt.mpr hlarge)

theorem Counts.eq_of_le {count size : Nat} (h : Counts count size)
    (hle : size ≤ maxExhaustive) : count = size :=
  h.eq_of_lt (Nat.lt_of_le_of_lt hle maxExhaustive_lt)

theorem counts_min (size : Nat) : Counts (min size cap) size := by
  have hcap : 2 ^ 64 ≤ cap := by decide
  rcases Nat.le_total size cap with h | h
  · exact .inl (Nat.min_eq_left h)
  · exact .inr ⟨Nat.min_eq_right h, Nat.le_trans hcap h⟩

/-! ## Sums and products -/

theorem Counts.add {a b x y : Nat} (ha : Counts a x) (hb : Counts b y) :
    Counts (add a b) (x + y) := by
  rcases ha with rfl | ⟨rfl, hx⟩
  · rcases hb with rfl | ⟨rfl, hy⟩
    · exact counts_min (a + b)
    · exact .inr ⟨Nat.min_eq_right (Nat.le_add_left _ _), by omega⟩
  · exact .inr ⟨Nat.min_eq_right (Nat.le_add_right _ _), by omega⟩

theorem Counts.mul {a b x y : Nat} (ha : Counts a x) (hb : Counts b y) :
    Counts (mul a b) (x * y) := by
  rcases ha with rfl | ⟨rfl, hx⟩
  · rcases hb with rfl | ⟨rfl, hy⟩
    · exact counts_min (a * b)
    · rcases Nat.eq_zero_or_pos a with rfl | ha
      · exact .inl (by rw [Count.mul, Nat.zero_mul, Nat.zero_mul]; rfl)
      · exact .inr ⟨Nat.min_eq_right (Nat.le_mul_of_pos_left _ ha),
          Nat.le_trans hy (Nat.le_mul_of_pos_left _ ha)⟩
  · rcases Nat.eq_zero_or_pos y with rfl | hy
    · -- a factor of zero brings the cap down again, and the size with it
      obtain rfl : b = 0 := hb.eq_of_le (Nat.zero_le _)
      exact .inl rfl
    · have hb' : 0 < b := by
        rcases hb with rfl | ⟨rfl, -⟩
        · exact hy
        · decide
      exact .inr ⟨Nat.min_eq_right (Nat.le_mul_of_pos_right _ hb'),
        Nat.le_trans hx (Nat.le_mul_of_pos_right _ hy)⟩

/-- A product is the same whether a factor was capped before or not. -/
theorem mul_min_cap (a b : Nat) : mul (min a cap) b = min (a * b) cap := by
  rw [mul]
  rcases Nat.le_total a cap with ha | ha
  · rw [Nat.min_eq_left ha]
  · rw [Nat.min_eq_right ha]
    rcases Nat.eq_zero_or_pos b with rfl | hb
    · rw [Nat.mul_zero, Nat.mul_zero]
    · have hcap : cap ≤ cap * b := Nat.le_mul_of_pos_right cap hb
      rw [Nat.min_eq_right hcap, Nat.min_eq_right (hcap.trans (Nat.mul_le_mul_right b ha))]

theorem counts_foldl_add {count size : Nat → Nat} {lengths : List Nat}
    (h : ∀ n ∈ lengths, Counts (count n) (size n)) {acc total : Nat} (hacc : Counts acc total) :
    Counts (lengths.foldl (fun acc n => add acc (count n)) acc)
      (total + (lengths.map size).sum) := by
  induction lengths generalizing acc total with
  | nil => exact hacc
  | cons n lengths ih =>
    obtain ⟨hn, hlengths⟩ := List.forall_mem_cons.mp h
    rw [List.foldl_cons, List.map_cons, List.sum_cons, ← Nat.add_assoc]
    exact ih hlengths (hacc.add hn)

theorem counts_sumOver {count size : Nat → Nat} {lengths : List Nat}
    (h : ∀ n ∈ lengths, Counts (count n) (size n)) :
    Counts (sumOver lengths count) (lengths.map size).sum := by
  have hsum := counts_foldl_add h (.inl (Eq.refl 0))
  rwa [Nat.zero_add] at hsum

/-! ## Powers -/

/-- Lengths above the greatest exponent, and exponents above 128, make no difference: the
power is 0, 1 or the cap by then. -/
theorem power_eq (base length : Nat) : power base length = min (base ^ length) cap := by
  have hexp : 128 ≤ maxExponent := by decide
  rcases Nat.eq_zero_or_pos length with rfl | hlength
  · rw [power, Nat.zero_min, Nat.pow_zero]
    rfl
  obtain ⟨e, he⟩ : ∃ e, min length maxExponent = e + 1 :=
    Nat.exists_eq_add_one.mpr (by omega)
  rw [power, he]
  match base with
  | 0 => rw [Nat.zero_pow hlength]; rfl
  | 1 => rw [Nat.one_pow]; rfl
  | base + 2 =>
    show min ((base + 2) ^ min (e + 1) 128) cap = _
    rcases Nat.le_total length 128 with h | h
    · have hmin : min (e + 1) 128 = length := by omega
      rw [hmin]
    · have hmin : min (e + 1) 128 = 128 := by omega
      have hcap : cap ≤ 2 ^ 128 := by decide
      have hpow : 2 ^ 128 ≤ (base + 2) ^ 128 := Nat.pow_le_pow_left (by omega) 128
      have hlen : (base + 2) ^ 128 ≤ (base + 2) ^ length :=
        Nat.pow_le_pow_right (by omega) h
      rw [hmin, Nat.min_eq_right (hcap.trans hpow), Nat.min_eq_right ((hcap.trans hpow).trans hlen)]

theorem counts_power (base length : Nat) : Counts (power base length) (base ^ length) := by
  rw [power_eq]
  exact counts_min _

theorem power_cap {length : Nat} (h : 0 < length) : power cap length = cap := by
  rw [power_eq, Nat.min_eq_right (Nat.le_self_pow (Nat.ne_of_gt h) cap)]

theorem Counts.pow {count base : Nat} (h : Counts count base) (length : Nat) :
    Counts (power count length) (base ^ length) := by
  rcases h with rfl | ⟨rfl, hlarge⟩
  · exact counts_power count length
  · rcases Nat.eq_zero_or_pos length with rfl | hlength
    · rw [Nat.pow_zero]
      exact .inl rfl
    · have hbase : base ≤ base ^ length := Nat.le_self_pow (Nat.ne_of_gt hlength) base
      exact .inr ⟨power_cap hlength, hlarge.trans hbase⟩

/-! ## Binomial coefficients -/

theorem choose_le_choose_of_le_half {n i j : Nat} (hij : i ≤ j) (hj : 2 * j ≤ n) :
    n.choose i ≤ n.choose j := by
  induction j, hij using Nat.le_induction with
  | base => exact Nat.le_refl _
  | succ j hij ih =>
    exact (ih (by omega)).trans (Nat.choose_le_succ_of_lt_half_left (by omega))

/-- A product that exceeds the cap before it is divided is the coefficient times its place,
and the place is no greater than the coefficient.  So the coefficient is at least the root
of the cap, even if it is itself below the cap. -/
theorem le_choose_of_cap_lt {n j : Nat} (hpos : 0 < j) (hj : 2 * j ≤ n)
    (h : cap < n.choose j * j) : 2 ^ 64 ≤ n.choose j := by
  have hplace : j ≤ n.choose j := by
    have hone := choose_le_choose_of_le_half (Nat.succ_le_of_lt hpos) hj
    rw [Nat.choose_one_right] at hone
    omega
  by_contra hlt
  have hle : n.choose j ≤ 2 ^ 64 - 1 := by omega
  have hsquare : n.choose j * j ≤ (2 ^ 64 - 1) * (2 ^ 64 - 1) :=
    Nat.mul_le_mul hle (hplace.trans hle)
  have hcap : (2 ^ 64 - 1) * (2 ^ 64 - 1) ≤ cap := by decide
  omega

/-- What the loop has so far is the coefficient for the factors taken.  Products increase from
round to round, so the last one decides whether any exceeds the cap. -/
theorem binomialFrom_eq {n steps taken : Nat} (h : 2 * (taken + steps) ≤ n)
    (hacc : n.choose taken * taken ≤ cap) :
    binomialFrom n steps taken (n.choose taken) =
      if cap < n.choose (taken + steps) * (taken + steps) then cap
      else n.choose (taken + steps) := by
  induction steps generalizing taken with
  | zero =>
    rw [Nat.add_zero, if_neg (Nat.not_lt.mpr hacc)]
    rfl
  | succ steps ih =>
    have hproduct : n.choose taken * (n - taken) = n.choose (taken + 1) * (taken + 1) :=
      (Nat.choose_succ_right_eq n taken).symm
    have hlast : taken + (steps + 1) = taken + 1 + steps := by omega
    rw [binomialFrom, hproduct, hlast]
    split
    · next hover =>
      have hchoose : n.choose (taken + 1) ≤ n.choose (taken + 1 + steps) :=
        choose_le_choose_of_le_half (Nat.le_add_right _ _) (by omega)
      have hle : n.choose (taken + 1) * (taken + 1) ≤
          n.choose (taken + 1 + steps) * (taken + 1 + steps) :=
        Nat.mul_le_mul hchoose (Nat.le_add_right _ _)
      rw [if_pos (Nat.lt_of_lt_of_le hover hle)]
    · next hwithin =>
      rw [Nat.mul_div_cancel _ (Nat.succ_pos taken)]
      exact ih (by omega) (Nat.not_lt.mp hwithin)

/-- The greatest product on the way to a coefficient, the one before the last division. -/
def peak (n k : Nat) : Nat :=
  n.choose k * min k (n - k)

theorem choose_min {n k : Nat} (h : k ≤ n) : n.choose (min k (n - k)) = n.choose k := by
  rcases Nat.le_total k (n - k) with hk | hk
  · rw [Nat.min_eq_left hk]
  · rw [Nat.min_eq_right hk, Nat.choose_symm h]

theorem binomial_eq (n k : Nat) :
    binomial n k = if cap < peak n k then cap else n.choose k := by
  rw [binomial, peak]
  split
  · next h => rw [Nat.choose_eq_zero_of_lt h, Nat.zero_mul, if_neg (Nat.not_lt_zero _)]
  · next h =>
    have hhalf : 2 * (0 + min k (n - k)) ≤ n := by omega
    have hloop := binomialFrom_eq hhalf (Nat.zero_le _)
    rwa [Nat.choose_zero_right, Nat.zero_add, choose_min (Nat.not_lt.mp h)] at hloop

/-- A product exceeds the cap on the way to a coefficient in the half where the loop is. -/
theorem exists_of_cap_lt_peak {n k : Nat} (h : cap < peak n k) :
    ∃ j, 0 < j ∧ 2 * j ≤ n ∧ n.choose j = n.choose k ∧ cap < n.choose j * j := by
  have hpos : 0 < n.choose k * min k (n - k) := Nat.lt_of_le_of_lt (Nat.zero_le _) h
  have hk : k ≤ n := by
    by_contra hlt
    rw [Nat.choose_eq_zero_of_lt (Nat.not_le.mp hlt), Nat.zero_mul] at hpos
    exact absurd hpos (Nat.lt_irrefl 0)
  refine ⟨min k (n - k), Nat.pos_of_mul_pos_left hpos, by omega, choose_min hk, ?_⟩
  rw [choose_min hk]
  exact h

theorem counts_binomial (n k : Nat) : Counts (binomial n k) (n.choose k) := by
  rw [binomial_eq]
  split
  · next h =>
    obtain ⟨j, hpos, hhalf, hchoose, hover⟩ := exists_of_cap_lt_peak h
    exact .inr ⟨rfl, hchoose ▸ le_choose_of_cap_lt hpos hhalf hover⟩
  · exact .inl rfl

theorem le_choose {n k : Nat} (hpos : 0 < k) (hk : k < n) : n ≤ n.choose k := by
  have hhalf {j : Nat} (hj : 1 ≤ j) (hle : 2 * j ≤ n) : n ≤ n.choose j := by
    have hone := choose_le_choose_of_le_half hj hle
    rwa [Nat.choose_one_right] at hone
  rcases Nat.le_total (2 * k) n with hle | hle
  · exact hhalf hpos hle
  · rw [← Nat.choose_symm (Nat.le_of_lt hk)]
    exact hhalf (by omega) (by omega)

/-- Of a capped number of items the first factor is the cap already, and the second is above
it. -/
theorem binomial_cap {k : Nat} (hpos : 0 < k) (hk : k < 2 ^ 64) : binomial cap k = cap := by
  have hcap : 2 * 2 ^ 64 ≤ cap := by decide
  have hsteps : min k (cap - k) = k := Nat.min_eq_left (by omega)
  obtain ⟨j, rfl⟩ := Nat.exists_eq_add_one.mpr hpos
  rw [binomial, if_neg (by omega), hsteps, binomialFrom, Nat.sub_zero, Nat.one_mul,
    if_neg (Nat.lt_irrefl cap), Nat.zero_add, Nat.div_one]
  cases j with
  | zero => rfl
  | succ j =>
    have hover : cap < cap * (cap - 1) := by decide
    rw [binomialFrom, if_pos hover]

theorem Counts.choose {count items : Nat} (h : Counts count items) {k : Nat}
    (hk : count = items ∨ k < 2 ^ 64) : Counts (binomial count k) (items.choose k) := by
  rcases hk with rfl | hk
  · exact counts_binomial count k
  rcases h with rfl | ⟨rfl, hlarge⟩
  · exact counts_binomial count k
  · rcases Nat.eq_zero_or_pos k with rfl | hpos
    · rw [Nat.choose_zero_right]
      exact .inl rfl
    · have hitems : items ≤ items.choose k := le_choose hpos (Nat.lt_of_lt_of_le hk hlarge)
      exact .inr ⟨binomial_cap hpos hk, hlarge.trans hitems⟩

end Count

end Divergence
