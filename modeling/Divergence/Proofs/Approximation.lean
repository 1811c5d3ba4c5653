/-
# `Divergence.Proofs.Approximation` — how many trials are selected at most

The concise set need not be as small as possible, but it is not much larger:
if some trials of the run exhibit every signature, then there are at most
`harmonic d` times as many selected trials, where `d` is the most signatures
that one trial exhibits (`length_ofTrials_le`).

The trials of such a cover pay for the selection.  One that could still add
`g` signatures has `harmonic g` left to spend (`reserve`).  Whenever a trial is
selected that adds `m` signatures, each trial of the cover gives `1 / m` for
each of those that it exhibits too.  It can afford this, because it could have
added `m` at most itself, or it would have been selected.  All `m` signatures
are exhibited somewhere in the cover, so together they give at least one for
every selection (`Partial.reserve_of_select`), and never more than they had.
-/
import Divergence.Proofs.Redundancy
import Mathlib.Algebra.BigOperators.Ring.Finset
import Mathlib.Algebra.Order.BigOperators.Group.List
import Mathlib.NumberTheory.Harmonic.Defs
import Mathlib.Tactic.Positivity
import Mathlib.Tactic.GCongr
import Mathlib.Tactic.Linarith
import Mathlib.Tactic.Ring

namespace Divergence.ConciseSet

variable {trials cover : List Trial} {selected : List Selected} {all : List Signature}
  {s : Selected}

/-! ## Harmonic numbers -/

/-- Each of the `r` last terms of a harmonic sum of at most `m` terms is at least `1 / m`. -/
theorem harmonic_add_div_le {n r m : Nat} (h : n + r ≤ m) :
    harmonic n + r / m ≤ harmonic (n + r) := by
  induction r with
  | zero => simp
  | succ r ih =>
    have hfirst : harmonic n + r / m ≤ harmonic (n + r) := ih (Nat.le_of_succ_le h)
    have hlast : (1 : ℚ) / m ≤ ((n + r + 1 : Nat) : ℚ)⁻¹ := by
      rw [one_div]
      gcongr
      exact h
    calc harmonic n + (r + 1 : Nat) / m = harmonic n + r / m + 1 / m := by push_cast; ring
      _ ≤ harmonic (n + r) + ((n + r + 1 : Nat) : ℚ)⁻¹ := add_le_add hfirst hlast
      _ = harmonic (n + (r + 1)) := (harmonic_succ (n + r)).symm

theorem harmonic_mono {n m : Nat} (h : n ≤ m) : harmonic n ≤ harmonic m := by
  obtain ⟨r, rfl⟩ := Nat.exists_eq_add_of_le h
  calc harmonic n ≤ harmonic n + r / (n + r : Nat) := le_add_of_nonneg_right (by positivity)
    _ ≤ harmonic (n + r) := harmonic_add_div_le (Nat.le_refl _)

theorem harmonic_nonneg (n : Nat) : 0 ≤ harmonic n := by
  rw [← harmonic_zero]
  exact harmonic_mono (Nat.zero_le n)

/-! ## What a selection takes from a trial -/

/-- How many of some signatures a trial exhibits. -/
def share (covers : List Signature) (t : Trial) : Nat :=
  (t.signatures.filter fun σ => σ ∈ covers).length

theorem gain_eq_add_share {covered covers : List Signature}
    (h : ∀ σ ∈ covers, σ ∉ covered) (t : Trial) :
    gain covered t = gain (covered ++ covers) t + share covers t := by
  have hnew : (t.signatures.filter fun σ => σ ∉ covered).filter (fun σ => σ ∈ covers) =
      t.signatures.filter fun σ => σ ∈ covers := by
    rw [List.filter_filter]
    refine List.filter_congr fun σ _ => ?_
    by_cases hσ : σ ∈ covers
    · simp [hσ, h σ hσ]
    · simp [hσ]
  have hold : (t.signatures.filter fun σ => σ ∉ covered).filter (fun σ => !decide (σ ∈ covers)) =
      t.signatures.filter fun σ => σ ∉ covered ++ covers := by
    rw [List.filter_filter]
    refine List.filter_congr fun σ _ => ?_
    simp [Bool.and_comm]
  rw [gain, List.length_eq_length_filter_add fun σ => decide (σ ∈ covers), hnew, hold, Nat.add_comm]
  rfl

/-- Every signature is exhibited by some trial of a cover, so the shares of all of them in some
signatures make up for those at least. -/
theorem length_le_sum_share {covers : List Signature} (hnodup : covers.Nodup)
    (hcover : covers ⊆ allSignatures cover) :
    covers.length ≤ (cover.map (share covers)).sum := by
  have hexhibited : covers ⊆ cover.flatMap fun t => t.signatures.filter fun σ => σ ∈ covers := by
    intro σ hσ
    obtain ⟨t, ht, hσt⟩ := mem_allSignatures.mp (hcover hσ)
    exact List.mem_flatMap.mpr ⟨t, ht, List.mem_filter.mpr ⟨hσt, decide_eq_true hσ⟩⟩
  have hle := (List.subperm_of_subset hnodup hexhibited).length_le
  rwa [List.length_flatMap] at hle

theorem one_le_sum_share_div {covers : List Signature} (hne : covers ≠ [])
    (hnodup : covers.Nodup) (hcover : covers ⊆ allSignatures cover) :
    (1 : ℚ) ≤ (cover.map fun t => (share covers t : ℚ) / covers.length).sum := by
  have hpos : (0 : ℚ) < covers.length := Nat.cast_pos.mpr (List.length_pos_iff.mpr hne)
  have hshares : (covers.length : ℚ) ≤ ((cover.map (share covers)).sum : Nat) :=
    Nat.cast_le.mpr (length_le_sum_share hnodup hcover)
  calc (1 : ℚ) ≤ ((cover.map (share covers)).sum : Nat) / covers.length := by
        rwa [le_div_iff₀ hpos, one_mul]
    _ = (cover.map fun t => (share covers t : ℚ) / covers.length).sum := by
        simp only [div_eq_mul_inv]
        rw [List.sum_map_mul_right, Nat.cast_list_sum, List.map_map]
        rfl

/-! ## What a cover has left to spend -/

/-- What the trials of a cover have left to spend, together. -/
def reserve (covered : List Signature) (cover : List Trial) : ℚ :=
  (cover.map fun t => harmonic (gain covered t)).sum

theorem reserve_nonneg (covered : List Signature) (cover : List Trial) :
    0 ≤ reserve covered cover := by
  refine List.sum_nonneg fun x hx => ?_
  obtain ⟨t, -, rfl⟩ := List.mem_map.mp hx
  exact harmonic_nonneg _

/-- Every selection costs a cover at least one. -/
theorem Partial.reserve_of_select (h : Partial trials selected) (hsub : cover ⊆ trials)
    (hcover : allSignatures trials ⊆ allSignatures cover)
    (hnext : next trials all selected = .select s) :
    reserve (covered (selected ++ [s])) cover + 1 ≤ reserve (covered selected) cover := by
  have hfresh : ∀ σ ∈ s.covers, σ ∉ covered selected := by
    intro σ hσ
    exact ((mem_covers_of_select hnext).mp hσ).2
  have hexhibited : s.covers ⊆ allSignatures cover := by
    intro σ hσ
    have hσs : σ ∈ s.trial.signatures := ((mem_covers_of_select hnext).mp hσ).1
    exact hcover (mem_allSignatures.mpr ⟨s.trial, trial_mem_of_select hnext, hσs⟩)
  have hpays : ∀ t ∈ cover, harmonic (gain (covered (selected ++ [s])) t) +
      share s.covers t / s.covers.length ≤ harmonic (gain (covered selected) t) := by
    intro t ht
    have hafford : gain (covered selected) t ≤ s.covers.length := by
      rcases h.gain_of_select hnext (hsub ht) with hless | ⟨heq, -⟩
      · exact Nat.le_of_lt hless
      · exact Nat.le_of_eq heq
    rw [gain_eq_add_share hfresh t] at hafford ⊢
    rw [covered_append]
    exact harmonic_add_div_le hafford
  have hone : (1 : ℚ) ≤ (cover.map fun t => (share s.covers t : ℚ) / s.covers.length).sum :=
    one_le_sum_share_div (covers_ne_nil_of_select hnext) (nodup_covers_of_select hnext) hexhibited
  calc reserve (covered (selected ++ [s])) cover + 1
      ≤ (cover.map fun t => harmonic (gain (covered (selected ++ [s])) t)).sum +
          (cover.map fun t => (share s.covers t : ℚ) / s.covers.length).sum :=
        add_le_add (le_refl _) hone
    _ = (cover.map fun t => harmonic (gain (covered (selected ++ [s])) t) +
          share s.covers t / s.covers.length).sum := List.sum_map_add.symm
    _ ≤ reserve (covered selected) cover := List.sum_le_sum hpays

/-- A run makes no more selections than a cover can pay for. -/
theorem Partial.length_selectFrom_le (h : Partial trials selected) (hsub : cover ⊆ trials)
    (hcover : allSignatures trials ⊆ allSignatures cover) :
    ((selectFrom trials all selected).length : ℚ) ≤
      selected.length + reserve (covered selected) cover := by
  fun_induction selectFrom trials all selected with
  | case1 selected s hselect ih =>
    have hrest := ih (h.select hselect)
    have hspent := h.reserve_of_select hsub hcover hselect
    rw [List.length_append, List.length_singleton, Nat.cast_add, Nat.cast_one] at hrest
    linarith
  | case2 selected hcomplete => exact le_add_of_nonneg_right (reserve_nonneg _ _)
  | case3 selected hstuck => exact le_add_of_nonneg_right (reserve_nonneg _ _)

/-! ## The bound -/

/-- The most signatures that one of the trials exhibits. -/
def breadth (trials : List Trial) : Nat :=
  (trials.map fun t => t.signatures.length).max?.getD 0

theorem length_signatures_le_breadth {t : Trial} (ht : t ∈ trials) :
    t.signatures.length ≤ breadth trials :=
  List.le_max?_getD_of_mem (List.mem_map_of_mem ht)

/-- Before anything is selected each trial of a cover has the harmonic number of its signatures
to spend. -/
theorem reserve_nil_le (hsub : cover ⊆ trials) :
    reserve [] cover ≤ harmonic (breadth trials) * cover.length := by
  have hbound : ∀ x ∈ cover.map fun t => harmonic (gain [] t), x ≤ harmonic (breadth trials) := by
    intro x hx
    obtain ⟨t, ht, rfl⟩ := List.mem_map.mp hx
    refine harmonic_mono (Nat.le_trans (List.length_filter_le _ _) ?_)
    exact length_signatures_le_breadth (hsub ht)
  have hsum := List.sum_le_card_nsmul _ _ hbound
  rw [List.length_map, nsmul_eq_mul, mul_comm] at hsum
  exact hsum

/-- If some trials of the run exhibit every signature together, the concise set has at most as
many trials as those, times the harmonic number of the most signatures that a trial exhibits. -/
theorem length_ofTrials_le (hsub : cover ⊆ trials)
    (hcover : allSignatures trials ⊆ allSignatures cover) :
    ((ofTrials trials).length : ℚ) ≤ harmonic (breadth trials) * cover.length := by
  have hrun : ((ofTrials trials).length : ℚ) ≤ ([] : List Selected).length + reserve [] cover :=
    (partial_nil trials).length_selectFrom_le hsub hcover
  rw [List.length_nil, Nat.cast_zero, zero_add] at hrun
  exact hrun.trans (reserve_nil_le hsub)

/-- The last two trials of `crossing` exhibit everything, and three trials are selected: as many
as the bound allows. -/
theorem length_ofTrials_le_crossing : crossing.drop 1 ⊆ crossing ∧
    allSignatures crossing ⊆ allSignatures (crossing.drop 1) ∧
    ((ofTrials crossing).length : ℚ) ≤ harmonic (breadth crossing) * (crossing.drop 1).length ∧
    ((ofTrials crossing).length : ℚ) = harmonic (breadth crossing) * (crossing.drop 1).length := by
  have hsub : crossing.drop 1 ⊆ crossing := List.drop_subset 1 crossing
  have hcover : allSignatures crossing ⊆ allSignatures (crossing.drop 1) := by
    have hsame : allSignatures crossing = allSignatures (crossing.drop 1) := by cbv
    intro σ hσ
    rwa [hsame] at hσ
  refine ⟨hsub, hcover, length_ofTrials_le hsub hcover, ?_⟩
  have hbreadth : breadth crossing = 2 := by cbv
  rw [hbreadth, ofTrials_crossing]
  norm_num [harmonic_succ, crossing]

end Divergence.ConciseSet
