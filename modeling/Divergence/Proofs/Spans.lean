/-
# `Divergence.Proofs.Spans` — the decimal of a double determines it

The decimal that a double is written as lies in the interval around the double,
whichever grid it is found on.  The intervals of two doubles have at most one
end in common, between neighbours, and of two neighbours only the one with the
even significand takes its ends in.  So no number is in the intervals of two
doubles (`near_unique`).

Intervals are compared in a unit that is a quarter of the smallest double: in it
all ends are whole numbers, and magnitude by magnitude one interval begins no
lower than the one before it ends.
-/
import Divergence.Binary64.Shortest
import Mathlib.Algebra.Order.Field.Power
import Mathlib.Data.Rat.Cast.Order
import Mathlib.Tactic.LinearCombination
import Mathlib.Tactic.Positivity
import Mathlib.Tactic.Ring

namespace Divergence.Binary64

/-- The number that a decimal `n · 10 ^ e` stands for. -/
def decimalValue (d : Nat × Int) : ℚ :=
  d.1 * 10 ^ d.2

/-! ## Grids -/

theorem zpow_mul_pow_toNat {b : ℚ} (hb : b ≠ 0) (e : Int) :
    b ^ e * b ^ (-e).toNat = b ^ e.toNat := by
  rw [← zpow_natCast, ← zpow_natCast, ← zpow_add₀ hb]
  congr 1
  omega

/-- Both sides of a comparison are brought to whole numbers by one factor. -/
theorem exists_scale (unit p : Int) : ∃ c : ℚ, 0 < c ∧ ∀ n d : Nat,
    ((onGrid unit p n d).1 : ℚ) = n * 2 ^ unit * c ∧
      ((onGrid unit p n d).2 : ℚ) = d * 10 ^ p * c := by
  have htwo := zpow_mul_pow_toNat (b := 2) (by norm_num) unit
  have hten := zpow_mul_pow_toNat (b := 10) (by norm_num) p
  refine ⟨10 ^ (-p).toNat * 2 ^ (-unit).toNat, by positivity, fun n d => ⟨?_, ?_⟩⟩
  · simp only [onGrid, Nat.shiftLeft_eq, Nat.pow_eq]
    push_cast
    rw [← htwo]
    ring
  · simp only [onGrid, Nat.shiftLeft_eq, Nat.pow_eq]
    push_cast
    rw [← hten]
    ring

namespace Span

/-- A number lies in the interval. -/
def Holds (s : Span) (q : ℚ) : Prop :=
  if s.closed then s.low * 2 ^ s.unit ≤ q ∧ q ≤ s.high * 2 ^ s.unit
  else s.low * 2 ^ s.unit < q ∧ q < s.high * 2 ^ s.unit

theorem holds_iff {s : Span} {p : Int} {d : Nat} :
    s.holds p d = true ↔ s.Holds (decimalValue (d, p)) := by
  obtain ⟨c, hc, hscale⟩ := exists_scale s.unit p
  obtain ⟨hlow, hvalue⟩ := hscale s.low d
  obtain ⟨hhigh, hvalue'⟩ := hscale s.high d
  have hholds : s.holds p d =
      if s.closed then
        decide ((onGrid s.unit p s.low d).1 ≤ (onGrid s.unit p s.low d).2) &&
          decide ((onGrid s.unit p s.high d).2 ≤ (onGrid s.unit p s.high d).1)
      else
        decide ((onGrid s.unit p s.low d).1 < (onGrid s.unit p s.low d).2) &&
          decide ((onGrid s.unit p s.high d).2 < (onGrid s.unit p s.high d).1) := rfl
  rw [hholds, Holds, decimalValue]
  split <;>
    simp only [Bool.and_eq_true, decide_eq_true_eq, ← Nat.cast_le (α := ℚ),
      ← Nat.cast_lt (α := ℚ), hlow, hvalue, hhigh, hvalue', mul_le_mul_iff_left₀ hc,
      mul_lt_mul_iff_left₀ hc]

/-! ## The search -/

theorem holds_of_pick? {s : Span} {p : Int} {d : Nat} (h : s.pick? p = some d) :
    s.holds p d = true := by
  simp only [pick?] at h
  split at h
  · next hbelow habove =>
    obtain rfl := Option.some.inj h
    split
    · exact habove
    · exact hbelow
  · next hbelow _ =>
    obtain rfl := Option.some.inj h
    exact hbelow
  · next _ habove =>
    obtain rfl := Option.some.inj h
    exact habove
  · cases h

theorem holds_of_search {s : Span} {steps : Nat} {p : Int} {d : Nat × Int}
    (h : s.search steps p = some d) : s.holds d.2 d.1 = true := by
  induction steps generalizing p with
  | zero => cases h
  | succ steps ih =>
    rw [search] at h
    split at h
    · next hpick =>
      cases h
      exact holds_of_pick? hpick
    · exact ih h

/-- Without a power of two the exact expansion is a whole number, and a negative power of two
is one of ten times one of five. -/
theorem decimalValue_exact (s : Span) : decimalValue s.exact = s.mid * 2 ^ s.unit := by
  rcases Int.le_total s.unit 0 with h | h
  · have hp : min s.unit 0 = s.unit := Int.min_eq_left h
    have hnat : s.unit.toNat = 0 := by omega
    have hpow := zpow_mul_pow_toNat (b := 5) (by norm_num) s.unit
    rw [hnat, pow_zero] at hpow
    have hten : (10 : ℚ) ^ s.unit = 2 ^ s.unit * 5 ^ s.unit := by
      rw [← mul_zpow]
      norm_num
    simp only [decimalValue, exact, hp, hnat, Nat.shiftLeft_zero, Nat.pow_eq, hten]
    push_cast
    linear_combination (s.mid : ℚ) * 2 ^ s.unit * hpow
  · have hp : min s.unit 0 = 0 := Int.min_eq_right h
    have hpow : (2 : ℚ) ^ s.unit.toNat = 2 ^ s.unit := by
      rw [← zpow_natCast, Int.toNat_of_nonneg h]
    simp only [decimalValue, exact, hp, Nat.shiftLeft_eq, Nat.pow_eq]
    push_cast
    rw [hpow]
    norm_num

end Span

/-! ## Magnitudes -/

/-- The significand of a magnitude. -/
def significandOf (k : Nat) : Nat :=
  if k / leadingBit = 0 then k % leadingBit else leadingBit + k % leadingBit

/-- The exponent of a magnitude, counted from that of the smallest doubles. -/
def shiftOf (k : Nat) : Nat :=
  k / leadingBit - 1

/-- The lower end of the interval around a magnitude, in quarters of the smallest double. -/
def lowerEnd (k : Nat) : Nat :=
  (if significandOf k = leadingBit then 4 * significandOf k - 1 else 4 * significandOf k - 2) *
    2 ^ shiftOf k

def upperEnd (k : Nat) : Nat :=
  (4 * significandOf k + 2) * 2 ^ shiftOf k

theorem significandOf_mod_two (k : Nat) : significandOf k % 2 = k % 2 := by
  unfold significandOf leadingBit
  split <;> omega

theorem lowerEnd_lt_upperEnd (k : Nat) : lowerEnd k < upperEnd k := by
  unfold lowerEnd upperEnd
  refine Nat.mul_lt_mul_of_pos_right ?_ (Nat.two_pow_pos _)
  split <;> omega

/-- Within an exponent the significand goes up by one.  Where the exponent goes up, the
significand falls back to its leading bit. -/
theorem magnitude_succ (k : Nat) :
    (significandOf (k + 1) = significandOf k + 1 ∧ shiftOf (k + 1) = shiftOf k) ∨
      (significandOf k + 1 = 2 * leadingBit ∧ significandOf (k + 1) = leadingBit ∧
        shiftOf (k + 1) = shiftOf k + 1) := by
  unfold significandOf shiftOf leadingBit
  split <;> split <;> omega

theorem upperEnd_le_lowerEnd_succ (k : Nat) : upperEnd k ≤ lowerEnd (k + 1) := by
  unfold upperEnd lowerEnd
  rcases magnitude_succ k with ⟨hsignificand, hshift⟩ | ⟨hlast, hfirst, hshift⟩
  · rw [hsignificand, hshift]
    refine Nat.mul_le_mul_right _ ?_
    split <;> omega
  · rw [hfirst, hshift, if_pos rfl, Nat.pow_succ', ← Nat.mul_assoc]
    refine Nat.mul_le_mul_right _ ?_
    omega

theorem upperEnd_le_lowerEnd {j k : Nat} (h : j < k) : upperEnd j ≤ lowerEnd k := by
  induction k, Nat.succ_le_of_lt h using Nat.le_induction with
  | base => exact upperEnd_le_lowerEnd_succ j
  | succ k hjk ih =>
    calc upperEnd j ≤ lowerEnd k := ih hjk
      _ ≤ upperEnd k := Nat.le_of_lt (lowerEnd_lt_upperEnd k)
      _ ≤ lowerEnd (k + 1) := upperEnd_le_lowerEnd_succ k

/-- If an interval ends where another begins, they are those of neighbours. -/
theorem eq_succ_of_lowerEnd_le {j k : Nat} (h : j < k) (hend : lowerEnd k ≤ upperEnd j) :
    k = j + 1 := by
  by_contra hne
  have hstep := upperEnd_le_lowerEnd_succ j
  have hinner := lowerEnd_lt_upperEnd (j + 1)
  have hfar : upperEnd (j + 1) ≤ lowerEnd k := upperEnd_le_lowerEnd (by omega)
  omega

/-- A number is in the interval around a magnitude, ends included if it is even. -/
def Near (k : Nat) (q : ℚ) : Prop :=
  lowerEnd k ≤ q * 2 ^ 1076 ∧ q * 2 ^ 1076 ≤ upperEnd k ∧
    (k % 2 = 1 → lowerEnd k < q * 2 ^ 1076 ∧ q * 2 ^ 1076 < upperEnd k)

theorem near_zero : Near 0 0 := by
  have hlow : lowerEnd 0 = 0 := by decide
  rw [Near, hlow, zero_mul]
  exact ⟨Nat.cast_zero.le, Nat.cast_nonneg _, fun h => absurd h (by decide)⟩

theorem not_near_of_lt {j k : Nat} {q : ℚ} (h : j < k) (hj : Near j q) : ¬ Near k q := by
  rintro ⟨hlow, -, hinner⟩
  obtain ⟨-, hhigh, hinner'⟩ := hj
  have hends : lowerEnd k ≤ upperEnd j := by exact_mod_cast hlow.trans hhigh
  obtain rfl := eq_succ_of_lowerEnd_le h hends
  -- one of the neighbours is odd and leaves out the end that they have in common
  have hle : upperEnd j ≤ lowerEnd (j + 1) := upperEnd_le_lowerEnd_succ j
  have hcast : (upperEnd j : ℚ) ≤ lowerEnd (j + 1) := by exact_mod_cast hle
  rcases Nat.mod_two_eq_zero_or_one j with heven | hodd
  · have hlt := (hinner (by omega)).1
    exact absurd (hlt.trans_le hhigh) (not_lt.mpr hcast)
  · have hlt := (hinner' hodd).2
    exact absurd (hlow.trans_lt hlt) (not_lt.mpr hcast)

/-- No number is in the intervals around two magnitudes. -/
theorem near_unique {j k : Nat} {q : ℚ} (hj : Near j q) (hk : Near k q) : j = k := by
  rcases Nat.lt_trichotomy j k with h | h | h
  · exact absurd hk (not_near_of_lt h hj)
  · exact h
  · exact absurd hj (not_near_of_lt h hk)

/-! ## The shortest decimal -/

theorem unit_span (x : Binary64) : x.span.unit = (shiftOf x.magnitude : Int) - 1076 := by
  simp only [span, exponent, shiftOf, Int.ofNat_eq_natCast]
  generalize x.magnitude / leadingBit = field
  split <;> omega

/-- An end of the interval of a double, in quarters of the smallest double. -/
theorem scale_end (x : Binary64) (n : Nat) :
    (n : ℚ) * 2 ^ x.span.unit * 2 ^ 1076 = (n * 2 ^ shiftOf x.magnitude : Nat) := by
  have hpow : (2 : ℚ) ^ x.span.unit * 2 ^ 1076 = 2 ^ shiftOf x.magnitude := by
    rw [← zpow_natCast, ← zpow_natCast, ← zpow_add₀ two_ne_zero, unit_span]
    congr 1
    omega
  rw [mul_assoc, hpow]
  push_cast
  rfl

theorem near_of_holds {x : Binary64} {q : ℚ} (h : x.span.Holds q) : Near x.magnitude q := by
  have hlow := scale_end x x.span.low
  have hhigh := scale_end x x.span.high
  have hpos : (0 : ℚ) < 2 ^ 1076 := by positivity
  have hparity : x.span.closed = true ↔ x.magnitude % 2 = 0 := by
    rw [← significandOf_mod_two]
    exact decide_eq_true_iff
  change _ = ((lowerEnd x.magnitude : Nat) : ℚ) at hlow
  change _ = ((upperEnd x.magnitude : Nat) : ℚ) at hhigh
  rw [Near, ← hlow, ← hhigh, mul_le_mul_iff_left₀ hpos, mul_le_mul_iff_left₀ hpos,
    mul_lt_mul_iff_left₀ hpos, mul_lt_mul_iff_left₀ hpos]
  unfold Span.Holds at h
  split at h
  · next hclosed =>
    exact ⟨h.1, h.2, fun hodd => by have := hparity.mp hclosed; omega⟩
  · exact ⟨h.1.le, h.2.le, fun _ => h⟩

theorem significand_pos {x : Binary64} (h : x.magnitude ≠ 0) : 0 < x.significand := by
  show 0 < significandOf x.magnitude
  unfold significandOf leadingBit
  split <;> omega

theorem holds_exact {x : Binary64} (h : x.magnitude ≠ 0) :
    x.span.Holds (decimalValue x.span.exact) := by
  have hpos := significand_pos h
  have hunit : (0 : ℚ) < 2 ^ x.span.unit := by positivity
  have hlow : x.span.low < x.span.mid := by
    simp only [span]
    split <;> omega
  have hhigh : x.span.mid < x.span.high := by
    simp only [span]
    omega
  have hlow' : (x.span.low : ℚ) * 2 ^ x.span.unit < x.span.mid * 2 ^ x.span.unit :=
    mul_lt_mul_of_pos_right (by exact_mod_cast hlow) hunit
  have hhigh' : (x.span.mid : ℚ) * 2 ^ x.span.unit < x.span.high * 2 ^ x.span.unit :=
    mul_lt_mul_of_pos_right (by exact_mod_cast hhigh) hunit
  rw [Span.decimalValue_exact, Span.Holds]
  split
  · exact ⟨hlow'.le, hhigh'.le⟩
  · exact ⟨hlow', hhigh'⟩

/-- The decimal that a double is written as lies in its interval. -/
theorem near_shortest {x : Binary64} (h : x.magnitude ≠ 0) :
    Near x.magnitude (decimalValue x.shortest) := by
  apply near_of_holds
  unfold shortest
  cases hsearch : x.span.search 24 x.span.coarsest with
  | none => exact holds_exact h
  | some d => exact Span.holds_iff.mp (Span.holds_of_search hsearch)

end Divergence.Binary64
