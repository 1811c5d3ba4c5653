/-
# `Divergence.Proofs.Cover` — the selection covers every signature

The selection ends because everything is covered, and never because no trial
is left to choose from.  What is kept from step to step is `Partial`: the
trials selected so far stand at different places, their gains are not empty
and do not overlap, and none of them has a signature left to add.  The last
part gives progress: a signature that is not covered belongs to some trial,
and that trial cannot have been taken (`next_ne_stuck`).

At the end the gains together are exactly the signatures of all trials.
-/
import Divergence.ConciseSet
import Divergence.Proofs.Canonical
import Divergence.Proofs.Orders
import Mathlib.Data.List.Dedup
import Mathlib.Data.List.Perm.Subperm

namespace Divergence

open Ordered

/-! ## Signatures of trials -/

namespace Trial

theorem mem_signatures {t : Trial} {σ : Signature} :
    σ ∈ t.signatures ↔ ∃ c ∈ t.divergent, Signature.ofCandidate t.reference c = σ := by
  rw [signatures, mem_elements, List.mem_map]

theorem nodup_signatures (t : Trial) : t.signatures.Nodup :=
  nodup_elements _

/-- A trial has signatures if it has a candidate that diverges. -/
theorem signatures_ne_nil {t : Trial} : t.signatures ≠ [] ↔ t.isDivergent = true := by
  rw [isDivergent, Bool.not_eq_true', List.isEmpty_eq_false_iff]
  constructor
  · intro h hnil
    obtain ⟨σ, hσ⟩ := List.exists_mem_of_ne_nil _ h
    obtain ⟨c, hc, -⟩ := mem_signatures.mp hσ
    rw [hnil] at hc
    exact List.not_mem_nil hc
  · intro h hnil
    obtain ⟨c, hc⟩ := List.exists_mem_of_ne_nil _ h
    have hσ : Signature.ofCandidate t.reference c ∈ t.signatures :=
      mem_signatures.mpr ⟨c, hc, rfl⟩
    rw [hnil] at hσ
    exact List.not_mem_nil hσ

theorem isDivergent_eq_false {t : Trial} :
    t.isDivergent = false ↔ ∀ c ∈ t.candidates, c.outcome.agrees t.reference = true := by
  rw [isDivergent, Bool.not_eq_false', List.isEmpty_iff, divergent, List.filter_eq_nil_iff]
  simp only [Bool.not_eq_true', Bool.not_eq_false]

end Trial

namespace ConciseSet

variable {trials : List Trial} {selected : List Selected} {s : Selected}

theorem mem_allSignatures {σ : Signature} :
    σ ∈ allSignatures trials ↔ ∃ t ∈ trials, σ ∈ t.signatures := by
  rw [allSignatures, mem_elements, List.mem_flatMap]

theorem nodup_allSignatures (trials : List Trial) : (allSignatures trials).Nodup :=
  nodup_elements _

theorem mem_covered {σ : Signature} : σ ∈ covered selected ↔ ∃ s ∈ selected, σ ∈ s.covers := by
  rw [covered, List.mem_flatMap]

theorem covered_append (selected : List Selected) (s : Selected) :
    covered (selected ++ [s]) = covered selected ++ s.covers := by
  rw [covered, List.flatMap_append, List.flatMap_singleton]
  rfl

theorem taken_append (selected : List Selected) (s : Selected) :
    taken (selected ++ [s]) = taken selected ++ [s.position] := by
  rw [taken, List.map_append, List.map_singleton]
  rfl

/-! ## What a step keeps -/

/-- What holds of the trials selected so far. -/
structure Partial (trials : List Trial) (selected : List Selected) : Prop where
  /-- Every selected trial stands where it says. -/
  placed : ∀ s ∈ selected, trials[s.position]? = some s.trial
  gains : ∀ s ∈ selected, s.covers ≠ []
  exhibits : ∀ s ∈ selected, s.covers ⊆ s.trial.signatures
  /-- No selected trial has a signature left to add. -/
  exhausted : ∀ s ∈ selected, s.trial.signatures ⊆ covered selected
  /-- No signature is covered twice. -/
  once : (covered selected).Nodup
  /-- No trial is selected twice. -/
  apart : (taken selected).Nodup

theorem partial_nil (trials : List Trial) : Partial trials [] where
  placed _ hs := absurd hs List.not_mem_nil
  gains _ hs := absurd hs List.not_mem_nil
  exhibits _ hs := absurd hs List.not_mem_nil
  exhausted _ hs := absurd hs List.not_mem_nil
  once := List.nodup_nil
  apart := List.nodup_nil

theorem Partial.trial_mem (h : Partial trials selected) (hs : s ∈ selected) : s.trial ∈ trials :=
  List.mem_of_getElem? (h.placed s hs)

theorem Partial.covered_subset (h : Partial trials selected) :
    covered selected ⊆ allSignatures trials := by
  intro σ hσ
  obtain ⟨s, hs, hσs⟩ := mem_covered.mp hσ
  exact mem_allSignatures.mpr ⟨s.trial, h.trial_mem hs, h.exhibits s hs hσs⟩

/-- Only trials that diverge are selected. -/
theorem Partial.isDivergent (h : Partial trials selected) :
    ∀ s ∈ selected, s.trial.isDivergent = true := by
  intro s hs
  obtain ⟨σ, hσ⟩ := List.exists_mem_of_ne_nil _ (h.gains s hs)
  exact Trial.signatures_ne_nil.mp (List.ne_nil_of_mem (h.exhibits s hs hσ))

/-- Adding an offer keeps the invariant. -/
theorem Partial.append (h : Partial trials selected) (hs : s ∈ offers trials selected) :
    Partial trials (selected ++ [s]) := by
  obtain ⟨t, ht, hfree, hoffer, hgain⟩ := mem_offers.mp hs
  have htrial : s.trial = t := by rw [hoffer]; rfl
  have hcovers : s.covers = t.signatures.filter fun σ => σ ∉ covered selected := by
    rw [hoffer]; rfl
  have hmem {σ : Signature} : σ ∈ s.covers ↔ σ ∈ t.signatures ∧ σ ∉ covered selected := by
    rw [hcovers, List.mem_filter, decide_eq_true_eq]
  refine ⟨?placed, ?gains, ?exhibits, ?exhausted, ?once, ?apart⟩
  case placed =>
    refine List.forall_mem_append.mpr ⟨h.placed, List.forall_mem_singleton.mpr ?_⟩
    rw [htrial]
    exact ht
  case gains =>
    exact List.forall_mem_append.mpr ⟨h.gains, List.forall_mem_singleton.mpr hgain⟩
  case exhibits =>
    refine List.forall_mem_append.mpr ⟨h.exhibits, List.forall_mem_singleton.mpr ?_⟩
    intro σ hσ
    rw [htrial]
    exact (hmem.mp hσ).1
  case exhausted =>
    rw [covered_append]
    refine List.forall_mem_append.mpr ⟨?_, List.forall_mem_singleton.mpr ?_⟩
    · intro s' hs' σ hσ
      exact List.mem_append_left _ (h.exhausted s' hs' hσ)
    · intro σ hσ
      rw [htrial] at hσ
      by_cases hcov : σ ∈ covered selected
      · exact List.mem_append_left _ hcov
      · exact List.mem_append_right _ (hmem.mpr ⟨hσ, hcov⟩)
  case once =>
    rw [covered_append]
    refine List.nodup_append.mpr ⟨h.once, ?_, ?_⟩
    · rw [hcovers]
      exact t.nodup_signatures.filter _
    · rintro σ hσ _ hσ' rfl
      exact (hmem.mp hσ').2 hσ
  case apart =>
    rw [taken_append]
    refine List.nodup_append.mpr ⟨h.apart, List.nodup_singleton _, ?_⟩
    rintro i hi j hj rfl
    rw [List.mem_singleton.mp hj] at hi
    exact hfree hi

theorem mem_offers_of_select {all : List Signature}
    (h : next trials all selected = .select s) : s ∈ offers trials selected :=
  best?_mem (next_eq_select h)

/-- A selection keeps the invariant. -/
theorem Partial.select {all : List Signature} (h : Partial trials selected)
    (hnext : next trials all selected = .select s) : Partial trials (selected ++ [s]) :=
  h.append (mem_offers_of_select hnext)

theorem best?_eq_none {all : List Selected} (h : best? all = none) : all = [] := by
  cases all with
  | nil => rfl
  | cons s rest => cases h

theorem next_eq_complete {all : List Signature} (h : next trials all selected = .complete) :
    all.length ≤ (covered selected).length := by
  unfold next at h
  split at h
  · split at h
    · cases h
    · cases h
  · next hle => exact Nat.not_lt.mp hle

theorem next_eq_stuck {all : List Signature} (h : next trials all selected = .stuck) :
    (covered selected).length < all.length ∧ offers trials selected = [] := by
  unfold next at h
  split at h
  · next hlt =>
    split at h
    · cases h
    · next hnone => exact ⟨hlt, best?_eq_none hnone⟩
  · cases h

/-- As long as something is not covered, some trial adds a signature. -/
theorem Partial.offers_ne_nil (h : Partial trials selected)
    (hlt : (covered selected).length < (allSignatures trials).length) :
    offers trials selected ≠ [] := by
  have hmissing : ∃ σ ∈ allSignatures trials, σ ∉ covered selected := by
    by_contra hall
    push Not at hall
    have hle := (List.subperm_of_subset (nodup_allSignatures trials) hall).length_le
    omega
  obtain ⟨σ, hσ, hfresh⟩ := hmissing
  obtain ⟨t, ht, hσt⟩ := mem_allSignatures.mp hσ
  obtain ⟨i, hi⟩ := List.getElem?_of_mem ht
  have hfree : i ∉ taken selected := by
    intro htaken
    obtain ⟨s, hs, rfl⟩ := List.mem_map.mp htaken
    have heq : s.trial = t := Option.some.inj ((h.placed s hs).symm.trans hi)
    exact hfresh (h.exhausted s hs (heq ▸ hσt))
  have hgain : (offer (covered selected) t i).covers ≠ [] := by
    apply List.ne_nil_of_mem (a := σ)
    exact List.mem_filter.mpr ⟨hσt, decide_eq_true hfresh⟩
  exact List.ne_nil_of_mem (mem_offers.mpr ⟨t, hi, hfree, rfl, hgain⟩)

theorem Partial.next_ne_stuck (h : Partial trials selected) :
    next trials (allSignatures trials) selected ≠ .stuck := by
  intro hstuck
  obtain ⟨hlt, hnone⟩ := next_eq_stuck hstuck
  exact h.offers_ne_nil hlt hnone

/-! ## What a run keeps -/

/-- The selection ends complete, whatever it starts from. -/
theorem selectFrom_partial (h : Partial trials selected) :
    Partial trials (selectFrom trials (allSignatures trials) selected) ∧
      next trials (allSignatures trials)
        (selectFrom trials (allSignatures trials) selected) = .complete := by
  fun_induction selectFrom trials (allSignatures trials) selected with
  | case1 selected s hselect ih =>
    exact ih (h.select hselect)
  | case2 selected hcomplete => exact ⟨h, hcomplete⟩
  | case3 selected hstuck => exact absurd hstuck h.next_ne_stuck

theorem ofTrials_partial (trials : List Trial) :
    Partial trials (ofTrials trials) ∧
      next trials (allSignatures trials) (ofTrials trials) = .complete :=
  selectFrom_partial (partial_nil trials)

/-- A complete selection has covered every signature there is. -/
theorem Partial.mem_covered_iff (h : Partial trials selected)
    (hcomplete : next trials (allSignatures trials) selected = .complete) {σ : Signature} :
    σ ∈ covered selected ↔ σ ∈ allSignatures trials := by
  have hsub := List.subperm_of_subset h.once h.covered_subset
  exact (hsub.perm_of_length_le (next_eq_complete hcomplete)).mem_iff

/-! ## Bounds -/

theorem length_le_length_covered (h : ∀ s ∈ selected, s.covers ≠ []) :
    selected.length ≤ (covered selected).length := by
  induction selected with
  | nil => exact Nat.le_refl 0
  | cons s rest ih =>
    obtain ⟨hs, hrest⟩ := List.forall_mem_cons.mp h
    have hpos : 0 < s.covers.length := List.length_pos_iff.mpr hs
    have hcons : covered (s :: rest) = s.covers ++ covered rest := rfl
    rw [hcons, List.length_append, List.length_cons]
    have := ih hrest
    omega

/-- Selected trials diverge, and stand at different places. -/
theorem Partial.length_le_countP (h : Partial trials selected) :
    selected.length ≤ trials.countP Trial.isDivergent := by
  let places := (trials.zipIdx.filter fun p => p.1.isDivergent).map Prod.snd
  have hsub : taken selected ⊆ places := by
    intro i hi
    obtain ⟨s, hs, rfl⟩ := List.mem_map.mp hi
    refine List.mem_map.mpr
      ⟨(s.trial, s.position), List.mem_filter.mpr ⟨?_, h.isDivergent s hs⟩, rfl⟩
    exact List.mem_zipIdx_iff_getElem?.mpr (h.placed s hs)
  have hplaces : places.length = trials.countP Trial.isDivergent := by
    rw [List.length_map, ← List.countP_eq_length_filter]
    conv_rhs => rw [← List.zipIdx_map_fst 0 trials, List.countP_map]
    rfl
  have hle := (List.subperm_of_subset h.apart hsub).length_le
  rwa [taken, List.length_map, hplaces] at hle

/-- The concise set of some trials covers every signature that any of them exhibits, and no
selection ends with anything left to cover.  Each selected trial adds signatures of its own
that no other adds, each trial is selected once, and none is selected if nothing diverges.  So
there are no more of them than trials that diverge, and no more than signatures. -/
theorem ofTrials_covers (trials : List Trial) :
    next trials (allSignatures trials) (ofTrials trials) = .complete ∧
    (∀ s ∈ ofTrials trials, trials[s.position]? = some s.trial ∧ s.covers ≠ [] ∧
      s.covers ⊆ s.trial.signatures) ∧
    (ofTrials trials).Pairwise
      (fun a b => a.covers.Disjoint b.covers ∧ a.position ≠ b.position) ∧
    (∀ σ, (∃ s ∈ ofTrials trials, σ ∈ s.covers) ↔ ∃ t ∈ trials, σ ∈ t.signatures) ∧
    (ofTrials trials = [] ↔
      ∀ t ∈ trials, ∀ c ∈ t.candidates, c.outcome.agrees t.reference = true) ∧
    (ofTrials trials).length ≤ min (trials.countP Trial.isDivergent)
      (trials.flatMap Trial.signatures).dedup.length := by
  obtain ⟨hpartial, hcomplete⟩ := ofTrials_partial trials
  have hunion : ∀ σ, (∃ s ∈ ofTrials trials, σ ∈ s.covers) ↔ ∃ t ∈ trials, σ ∈ t.signatures := by
    intro σ
    rw [← mem_covered, ← mem_allSignatures]
    exact hpartial.mem_covered_iff hcomplete
  refine ⟨hcomplete, ?selected, ?apart, hunion, ?empty, ?bounds⟩
  case selected =>
    intro s hs
    exact ⟨hpartial.placed s hs, hpartial.gains s hs, hpartial.exhibits s hs⟩
  case apart =>
    have hdisjoint := (List.nodup_flatMap.mp hpartial.once).2
    exact hdisjoint.and (List.pairwise_map.mp hpartial.apart)
  case empty =>
    constructor
    · intro hnil t ht
      apply Trial.isDivergent_eq_false.mp
      by_contra hdivergent
      rw [Bool.not_eq_false] at hdivergent
      have hne := Trial.signatures_ne_nil.mpr hdivergent
      obtain ⟨σ, hσ⟩ := List.exists_mem_of_ne_nil _ hne
      obtain ⟨s, hs, -⟩ := (hunion σ).mpr ⟨t, ht, hσ⟩
      rw [hnil] at hs
      exact List.not_mem_nil hs
    · intro hagree
      apply List.eq_nil_iff_forall_not_mem.mpr
      intro s hs
      obtain ⟨σ, hσ⟩ := List.exists_mem_of_ne_nil _ (hpartial.gains s hs)
      obtain ⟨t, ht, hσt⟩ := (hunion σ).mp ⟨s, hs, hσ⟩
      have hfalse := Trial.isDivergent_eq_false.mpr (hagree t ht)
      have htrue := Trial.signatures_ne_nil.mp (List.ne_nil_of_mem hσt)
      rw [hfalse] at htrue
      cases htrue
  case bounds =>
    refine Nat.le_min.mpr ⟨hpartial.length_le_countP, ?_⟩
    have hcovered := length_le_length_covered hpartial.gains
    have hsub : covered (ofTrials trials) ⊆ (trials.flatMap Trial.signatures).dedup := by
      intro σ hσ
      rw [List.mem_dedup, List.mem_flatMap]
      exact (hunion σ).mp (mem_covered.mp hσ)
    exact Nat.le_trans hcovered (List.subperm_of_subset hpartial.once hsub).length_le

end ConciseSet

end Divergence
