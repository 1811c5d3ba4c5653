/-
# `Divergence.Proofs.Rounding` — the doubles nearest to integers

Rounding an integer to a double never changes the order of two integers, so
two of them become the same double only if all integers between them do: it is
enough to look at neighbours (`ofInt_injOn_iff`).  Up to `2 ^ 53`, on either
side of zero, no two integers become the same double; beyond it some
neighbours do, and `2 ^ 53` itself is the first of them.

Everything comes from one closed form.  The exponent of a positive integer is
that of its leading bit, so its magnitude is its significand, rounded, on top of
that exponent; significands stay within one power of two, and so magnitudes of
integers with different leading bits cannot cross.
-/
import Divergence.Binary64.Rounding
import Mathlib.Algebra.GroupWithZero.Nat
import Mathlib.Algebra.Ring.Int.Defs

namespace Divergence.Binary64

/-! ## Rounding a quotient -/

theorem roundHalfEven_le (num den : Nat) : roundHalfEven num den ≤ num / den + 1 := by
  unfold roundHalfEven
  extract_lets quotient twice
  split <;> omega

theorem le_roundHalfEven (num den : Nat) : num / den ≤ roundHalfEven num den := by
  unfold roundHalfEven
  extract_lets quotient twice
  split <;> omega

theorem roundHalfEven_mono {num num' den : Nat} (h : num ≤ num') :
    roundHalfEven num den ≤ roundHalfEven num' den := by
  have hquotient : num / den ≤ num' / den := Nat.div_le_div_right h
  rcases Nat.lt_or_eq_of_le hquotient with hlt | heq
  · calc roundHalfEven num den ≤ num / den + 1 := roundHalfEven_le num den
      _ ≤ num' / den := hlt
      _ ≤ roundHalfEven num' den := le_roundHalfEven num' den
  · -- the same quotient, so the remainders are in order
    have hmod : num % den ≤ num' % den := by
      have := Nat.div_add_mod num den
      have := Nat.div_add_mod num' den
      rw [heq] at *
      omega
    simp only [roundHalfEven, heq, Bool.or_eq_true, Bool.and_eq_true, decide_eq_true_eq,
      beq_iff_eq]
    split <;> split <;> omega

theorem roundHalfEven_one (num : Nat) : roundHalfEven num 1 = num := by
  simp [roundHalfEven, Nat.mod_one]

/-! ## Magnitudes of positive integers -/

/-- The significand of a positive integer, rounded to fifty-three bits. -/
def integerSignificand (n : Nat) : Nat :=
  roundHalfEven (n <<< (52 - n.log2)) (1 <<< (n.log2 - 52))

/-- The magnitude of a positive integer, were there no greatest one: its significand on top
of the exponent of its leading bit. -/
def unboundedMagnitude (n : Nat) : Nat :=
  integerSignificand n + (n.log2 + 1022) * leadingBit

theorem leadingBit_eq : leadingBit = 2 ^ 52 := rfl

theorem exponentFor_one {n : Nat} (hn : n ≠ 0) : exponentFor n 1 = (n.log2 : Int) - 52 := by
  have hguess : max ((n.log2 : Int) - ((1 : Nat).log2 : Int) - 53) (-1074) =
      (n.log2 : Int) - 53 := by
    have hone : (1 : Nat).log2 = 0 := by decide
    rw [hone]
    omega
  have hlow : 2 ^ n.log2 ≤ n := Nat.log2_self_le hn
  simp only [exponentFor, hguess, scaled, Nat.shiftLeft_eq, leadingBit_eq]
  have hscaled : 2 * 2 ^ 52 * (1 * 2 ^ ((n.log2 : Int) - 53).toNat) ≤
      n * 2 ^ (-((n.log2 : Int) - 53)).toNat := by
    rcases Nat.le_total n.log2 53 with hle | hle
    · have hb : ((n.log2 : Int) - 53).toNat = 0 := by omega
      have ha : (-((n.log2 : Int) - 53)).toNat = 53 - n.log2 := by omega
      rw [hb, ha]
      calc 2 * 2 ^ 52 * (1 * 2 ^ 0) = 2 ^ 53 := by decide
        _ = 2 ^ n.log2 * 2 ^ (53 - n.log2) := by
            rw [← Nat.pow_add, Nat.add_sub_cancel' hle]
        _ ≤ n * 2 ^ (53 - n.log2) := Nat.mul_le_mul_right _ hlow
    · have hb : ((n.log2 : Int) - 53).toNat = n.log2 - 53 := by omega
      have ha : (-((n.log2 : Int) - 53)).toNat = 0 := by omega
      rw [hb, ha]
      calc 2 * 2 ^ 52 * (1 * 2 ^ (n.log2 - 53)) = 2 ^ n.log2 := by
            rw [Nat.one_mul, ← Nat.pow_succ', ← Nat.pow_add, Nat.add_sub_cancel' hle]
        _ ≤ n * 2 ^ 0 := by
            rw [Nat.pow_zero, Nat.mul_one]
            exact hlow
  rw [if_pos hscaled]
  omega

theorem nearestMagnitude_one {n : Nat} (hn : n ≠ 0) :
    nearestMagnitude n 1 = min (unboundedMagnitude n) infMagnitude := by
  have hb : ((n.log2 : Int) - 52).toNat = n.log2 - 52 := by omega
  have ha : (-((n.log2 : Int) - 52)).toNat = 52 - n.log2 := by omega
  have he : ((n.log2 : Int) - 52 + 1074).toNat = n.log2 + 1022 := by omega
  simp only [nearestMagnitude, exponentFor_one hn, scaled, hb, ha, he, unboundedMagnitude,
    integerSignificand]

/-- Up to the fifty-third bit, the significand of an integer is exact. -/
theorem integerSignificand_eq {n : Nat} (h : n.log2 ≤ 52) :
    integerSignificand n = n * 2 ^ (52 - n.log2) := by
  rw [integerSignificand, Nat.sub_eq_zero_of_le h, Nat.shiftLeft_zero, roundHalfEven_one,
    Nat.shiftLeft_eq]

theorem exact_significand_lt {n : Nat} (h : n.log2 ≤ 52) :
    n * 2 ^ (52 - n.log2) < 2 * leadingBit := by
  calc n * 2 ^ (52 - n.log2) < 2 ^ (n.log2 + 1) * 2 ^ (52 - n.log2) :=
        Nat.mul_lt_mul_of_pos_right Nat.lt_log2_self (Nat.two_pow_pos _)
    _ = 2 ^ (n.log2 + (52 - n.log2) + 1) := by
        rw [← Nat.pow_add]
        congr 1
        omega
    _ = 2 * leadingBit := by rw [Nat.add_sub_cancel' h, Nat.pow_succ', leadingBit_eq]

/-- The quotient that is rounded to a significand has fifty-three bits. -/
theorem scaled_integer_bounds {n : Nat} (hn : n ≠ 0) :
    leadingBit ≤ n <<< (52 - n.log2) / 1 <<< (n.log2 - 52) ∧
      n <<< (52 - n.log2) / 1 <<< (n.log2 - 52) < 2 * leadingBit := by
  have hlow : 2 ^ n.log2 ≤ n := Nat.log2_self_le hn
  have hhigh : n < 2 ^ (n.log2 + 1) := Nat.lt_log2_self
  rcases Nat.le_total n.log2 52 with hle | hle
  · rw [Nat.sub_eq_zero_of_le hle, Nat.shiftLeft_zero, Nat.div_one, Nat.shiftLeft_eq]
    refine ⟨?_, exact_significand_lt hle⟩
    calc leadingBit = 2 ^ n.log2 * 2 ^ (52 - n.log2) := by
          rw [← Nat.pow_add, Nat.add_sub_cancel' hle, leadingBit_eq]
      _ ≤ n * 2 ^ (52 - n.log2) := Nat.mul_le_mul_right _ hlow
  · rw [Nat.sub_eq_zero_of_le hle, Nat.shiftLeft_zero, Nat.shiftLeft_eq, Nat.one_mul,
      Nat.le_div_iff_mul_le (Nat.two_pow_pos _), Nat.div_lt_iff_lt_mul (Nat.two_pow_pos _)]
    have hlog : leadingBit * 2 ^ (n.log2 - 52) = 2 ^ n.log2 := by
      rw [leadingBit_eq, ← Nat.pow_add, Nat.add_sub_cancel' hle]
    constructor
    · rw [hlog]
      exact hlow
    · rw [Nat.mul_assoc, hlog, ← Nat.pow_succ']
      exact hhigh

theorem integerSignificand_bounds {n : Nat} (hn : n ≠ 0) :
    leadingBit ≤ integerSignificand n ∧ integerSignificand n ≤ 2 * leadingBit := by
  obtain ⟨hlow, hhigh⟩ := scaled_integer_bounds hn
  exact ⟨Nat.le_trans hlow (le_roundHalfEven _ _),
    Nat.le_trans (roundHalfEven_le _ _) hhigh⟩

/-- With a leading bit further up the magnitude is greater, whatever the significands. -/
theorem exponent_part_le {n m : Nat} (h : n.log2 < m.log2) :
    leadingBit + (n.log2 + 1022) * leadingBit ≤ (m.log2 + 1022) * leadingBit := by
  calc leadingBit + (n.log2 + 1022) * leadingBit = (n.log2 + 1022 + 1) * leadingBit := by
        rw [Nat.add_comm, ← Nat.succ_mul]
    _ ≤ (m.log2 + 1022) * leadingBit := Nat.mul_le_mul_right _ (by omega)

theorem log2_mono {n m : Nat} (hn : n ≠ 0) (h : n ≤ m) : n.log2 ≤ m.log2 := by
  rw [Nat.le_log2 (by omega)]
  exact Nat.le_trans (Nat.log2_self_le hn) h

theorem unboundedMagnitude_mono {n m : Nat} (hn : n ≠ 0) (h : n ≤ m) :
    unboundedMagnitude n ≤ unboundedMagnitude m := by
  have hm : m ≠ 0 := by omega
  obtain ⟨-, hhigh⟩ := integerSignificand_bounds hn
  obtain ⟨hlow, -⟩ := integerSignificand_bounds hm
  unfold unboundedMagnitude
  rcases Nat.lt_or_eq_of_le (log2_mono hn h) with hlt | heq
  · have hexponent := exponent_part_le hlt
    omega
  · rw [heq]
    apply Nat.add_le_add_right
    rw [integerSignificand, integerSignificand, heq]
    apply roundHalfEven_mono
    rw [Nat.shiftLeft_eq, Nat.shiftLeft_eq]
    exact Nat.mul_le_mul_right _ h

/-- Up to `2 ^ 53` integers are kept apart. -/
theorem unboundedMagnitude_strictMono {n m : Nat} (hn : n ≠ 0) (h : n < m)
    (hm : m ≤ 2 ^ 53) : unboundedMagnitude n < unboundedMagnitude m := by
  have hnlog : n.log2 ≤ 52 := by
    have hlt : n.log2 < 53 := (Nat.log2_lt hn).mpr (Nat.lt_of_lt_of_le h hm)
    omega
  obtain ⟨hlow, -⟩ := integerSignificand_bounds (Nat.ne_zero_of_lt h)
  unfold unboundedMagnitude
  rcases Nat.lt_or_eq_of_le (log2_mono hn (Nat.le_of_lt h)) with hlt | heq
  · have hexponent := exponent_part_le hlt
    have hsignificand := exact_significand_lt hnlog
    rw [integerSignificand_eq hnlog]
    omega
  · rw [heq]
    apply Nat.add_lt_add_right
    rw [integerSignificand_eq hnlog, integerSignificand_eq (heq ▸ hnlog), heq]
    exact Nat.mul_lt_mul_of_pos_right h (Nat.two_pow_pos _)

/-- Integers of 64 bits are far from the greatest double. -/
theorem unboundedMagnitude_lt_inf {n : Nat} (hn : n ≠ 0) (h : n ≤ 2 ^ 64) :
    unboundedMagnitude n < infMagnitude := by
  have hlog : n.log2 < 65 :=
    (Nat.log2_lt hn).mpr (Nat.lt_of_le_of_lt h (Nat.pow_lt_pow_right (by decide) (by decide)))
  obtain ⟨-, hhigh⟩ := integerSignificand_bounds hn
  have hexponent : (n.log2 + 1022) * leadingBit ≤ 1086 * leadingBit :=
    Nat.mul_le_mul_right _ (by omega)
  calc unboundedMagnitude n ≤ 2 * leadingBit + 1086 * leadingBit :=
        Nat.add_le_add hhigh hexponent
    _ < infMagnitude := by decide

/-! ## Magnitudes of integers -/

/-- The magnitude of an integer, zero included. -/
def integerMagnitude (n : Nat) : Nat :=
  if n = 0 then 0 else nearestMagnitude n 1

theorem integerMagnitude_of_ne_zero {n : Nat} (hn : n ≠ 0) :
    integerMagnitude n = min (unboundedMagnitude n) infMagnitude := by
  rw [integerMagnitude, if_neg hn, nearestMagnitude_one hn]

theorem integerMagnitude_pos {n : Nat} (hn : n ≠ 0) : 0 < integerMagnitude n := by
  obtain ⟨hlow, -⟩ := integerSignificand_bounds hn
  have hsignificand : 0 < integerSignificand n := Nat.lt_of_lt_of_le (by decide) hlow
  rw [integerMagnitude_of_ne_zero hn, Nat.lt_min]
  exact ⟨Nat.add_pos_left hsignificand _, by decide⟩

theorem integerMagnitude_le_inf (n : Nat) : integerMagnitude n ≤ infMagnitude := by
  unfold integerMagnitude
  split
  · exact Nat.zero_le _
  · exact Nat.min_le_right _ _

theorem integerMagnitude_mono {n m : Nat} (h : n ≤ m) :
    integerMagnitude n ≤ integerMagnitude m := by
  by_cases hn : n = 0
  · rw [integerMagnitude, if_pos hn]
    exact Nat.zero_le _
  · rw [integerMagnitude_of_ne_zero hn, integerMagnitude_of_ne_zero (by omega)]
    have hmono := unboundedMagnitude_mono hn h
    exact Nat.le_min.mpr ⟨Nat.le_trans (Nat.min_le_left _ _) hmono, Nat.min_le_right _ _⟩

theorem integerMagnitude_strictMono {n m : Nat} (h : n < m) (hm : m ≤ 2 ^ 53) :
    integerMagnitude n < integerMagnitude m := by
  have hmne : m ≠ 0 := Nat.ne_zero_of_lt h
  by_cases hn : n = 0
  · rw [integerMagnitude, if_pos hn]
    exact integerMagnitude_pos hmne
  · have hlt := unboundedMagnitude_strictMono hn h hm
    have hinf := unboundedMagnitude_lt_inf hmne (Nat.le_trans hm (by decide))
    rw [integerMagnitude_of_ne_zero hn, integerMagnitude_of_ne_zero hmne,
      Nat.min_eq_left (Nat.le_of_lt hinf)]
    exact Nat.lt_of_le_of_lt (Nat.min_le_left _ _) hlt

/-! ## The doubles of integers -/

theorem magnitude_ofMagnitude {negative : Bool} {m : Nat} (h : m < signBit) :
    (ofMagnitude negative m).magnitude = m := by
  cases negative <;> simp only [signBit] at h <;>
    simp [ofMagnitude, magnitude, signBit, UInt64.toNat_ofNat'] <;> omega

theorem negative_ofMagnitude {negative : Bool} {m : Nat} (h : m < signBit) :
    (ofMagnitude negative m).negative = negative := by
  cases negative <;> simp only [signBit] at h <;>
    simp [ofMagnitude, Binary64.negative, signBit, UInt64.toNat_ofNat'] <;> omega

theorem ofInt_eq (i : Int) : ofInt i = ofMagnitude (i < 0) (integerMagnitude i.natAbs) := by
  unfold ofInt ofFraction integerMagnitude
  split <;> rfl

theorem integerMagnitude_lt_signBit (n : Nat) : integerMagnitude n < signBit :=
  Nat.lt_of_le_of_lt (integerMagnitude_le_inf n) (by decide)

theorem magnitude_ofInt (i : Int) : (ofInt i).magnitude = integerMagnitude i.natAbs := by
  rw [ofInt_eq, magnitude_ofMagnitude (integerMagnitude_lt_signBit _)]

theorem orderKey_ofInt (i : Int) :
    (ofInt i).orderKey =
      if i < 0 then -(integerMagnitude i.natAbs : Int) - 1 else integerMagnitude i.natAbs := by
  rw [orderKey, magnitude_ofInt, ofInt_eq,
    negative_ofMagnitude (integerMagnitude_lt_signBit _)]
  simp only [decide_eq_true_eq]

theorem isFinite_ofInt {i : Int} (h : i.natAbs ≤ 2 ^ 64) : (ofInt i).isFinite = true := by
  rw [isFinite, decide_eq_true_eq, magnitude_ofInt]
  by_cases hi : i.natAbs = 0
  · rw [integerMagnitude, if_pos hi]
    decide
  · rw [integerMagnitude_of_ne_zero hi]
    exact Nat.lt_of_le_of_lt (Nat.min_le_left _ _) (unboundedMagnitude_lt_inf hi h)

/-- Rounding keeps the order of integers. -/
theorem orderKey_ofInt_mono {i j : Int} (h : i ≤ j) :
    (ofInt i).orderKey ≤ (ofInt j).orderKey := by
  rw [orderKey_ofInt, orderKey_ofInt]
  by_cases hi : i < 0
  · by_cases hj : j < 0
    · have hmono : integerMagnitude j.natAbs ≤ integerMagnitude i.natAbs :=
        integerMagnitude_mono (by omega)
      rw [if_pos hi, if_pos hj]
      omega
    · rw [if_pos hi, if_neg hj]
      omega
  · have hj : ¬ j < 0 := by omega
    have hmono : integerMagnitude i.natAbs ≤ integerMagnitude j.natAbs :=
      integerMagnitude_mono (by omega)
    rw [if_neg hi, if_neg hj]
    omega

theorem ofInt_ne_of_le_two_pow {i j : Int} (h : i < j) (hi : -2 ^ 53 ≤ i) (hj : j ≤ 2 ^ 53) :
    ofInt i ≠ ofInt j := by
  rw [ne_eq, ← orderKey_inj, orderKey_ofInt, orderKey_ofInt]
  by_cases hineg : i < 0
  · by_cases hjneg : j < 0
    · have hlt : integerMagnitude j.natAbs < integerMagnitude i.natAbs :=
        integerMagnitude_strictMono (by omega) (by omega)
      rw [if_pos hineg, if_pos hjneg]
      omega
    · rw [if_pos hineg, if_neg hjneg]
      omega
  · have hjneg : ¬ j < 0 := by omega
    have hlt : integerMagnitude i.natAbs < integerMagnitude j.natAbs :=
      integerMagnitude_strictMono (by omega) (by omega)
    rw [if_neg hineg, if_neg hjneg]
    omega

/-- Integers that become the same double do so with all integers between them. -/
theorem ofInt_eq_succ {i j : Int} (h : i < j) (heq : ofInt i = ofInt j) :
    ofInt i = ofInt (i + 1) := by
  rw [← orderKey_inj]
  apply Int.le_antisymm
  · exact orderKey_ofInt_mono (by omega)
  · rw [heq]
    exact orderKey_ofInt_mono h

/-- The integers of a range become different doubles if neighbours do. -/
theorem ofInt_injOn_iff {lower upper : Int} :
    (∀ i j, lower ≤ i → i < j → j ≤ upper → ofInt i ≠ ofInt j) ↔
      ∀ i, lower ≤ i → i < upper → ofInt i ≠ ofInt (i + 1) := by
  constructor
  · intro h i hi hu
    exact h i (i + 1) hi (by omega) hu
  · intro h i j hi hij hj heq
    exact h i hi (by omega) (ofInt_eq_succ hij heq)

/-- The doubles of integers are numerically equal only if they are the same; there is no
negative zero among them. -/
theorem numEq_ofInt {i j : Int} : numEq (ofInt i) (ofInt j) = true ↔ ofInt i = ofInt j := by
  have hnan (k : Int) : (ofInt k).isNaN = false := by
    have hle := integerMagnitude_le_inf k.natAbs
    simp only [isNaN, magnitude_ofInt, decide_eq_false_iff_not]
    omega
  have hzero {k : Int} (h : (ofInt k).magnitude = 0) : k = 0 := by
    rw [magnitude_ofInt] at h
    by_cases hk : k = 0
    · exact hk
    · have hpos : 0 < integerMagnitude k.natAbs := integerMagnitude_pos (by omega)
      omega
  simp only [numEq, hnan, Bool.or_false, Bool.false_eq_true, if_false]
  split
  · next h =>
    rw [Bool.and_eq_true, beq_iff_eq, beq_iff_eq] at h
    simp only [hzero h.1, hzero h.2]
  · exact beq_iff_eq

end Divergence.Binary64
