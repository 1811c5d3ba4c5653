/-
# `Divergence.Proofs.Greedy` — every selection is the best there is

Each trial of the concise set is the best choice at its turn: no trial of the
run, taken or not, adds more signatures to those covered by then, and among
those that add as many it has the smallest index and, of several with this
index, stands first.

The choice is made by one scan over the offers (`best?_precedes`), which needs
that offers come in the order of their places.  Trials that make no offer do
not matter: they add nothing.  A run is the sequence of such choices, each made
from what the ones before it left over (`next_take_eq_select`).
-/
import Divergence.Proofs.Cover
import Mathlib.Data.List.Permutation

namespace Divergence.ConciseSet

variable {trials : List Trial} {selected : List Selected} {all : List Signature}

/-- How many signatures a trial adds to those that are covered. -/
def gain (covered : List Signature) (t : Trial) : Nat :=
  (t.signatures.filter fun σ => σ ∉ covered).length

/-! ## The order of preference -/

/-- The first is to be preferred, or the two are equally good and stand at the same place. -/
def Precedes (a b : Selected) : Prop :=
  b.covers.length < a.covers.length ∨
    (b.covers.length = a.covers.length ∧
      (a.trial.index < b.trial.index ∨
        (a.trial.index = b.trial.index ∧ a.position ≤ b.position)))

theorem precedes_refl (a : Selected) : Precedes a a :=
  .inr ⟨rfl, .inr ⟨rfl, Nat.le_refl _⟩⟩

theorem Precedes.trans {a b c : Selected} (hab : Precedes a b) (hbc : Precedes b c) :
    Precedes a c := by
  unfold Precedes at *
  omega

theorem better_precedes {a b : Selected} (h : a.position < b.position) :
    Precedes (better a b) a ∧ Precedes (better a b) b := by
  unfold better
  split
  · next hb => exact ⟨by unfold Precedes; omega, precedes_refl b⟩
  · next ha => exact ⟨precedes_refl a, by unfold Precedes; omega⟩

theorem better_eq_or (a b : Selected) : better a b = a ∨ better a b = b := by
  unfold better
  split
  · exact .inr rfl
  · exact .inl rfl

/-- One scan finds the first in the order of preference, from left to right. -/
theorem foldl_better_precedes {s : Selected} {rest : List Selected}
    (h : (s :: rest).Pairwise fun a b => a.position < b.position) :
    ∀ x ∈ s :: rest, Precedes (rest.foldl better s) x := by
  induction rest generalizing s with
  | nil => exact List.forall_mem_singleton.mpr (precedes_refl s)
  | cons t rest ih =>
    obtain ⟨hs, hrest⟩ := List.pairwise_cons.mp h
    obtain ⟨ht, hlater⟩ := List.pairwise_cons.mp hrest
    obtain ⟨hst, htl⟩ := List.forall_mem_cons.mp hs
    have hbest : ((better s t) :: rest).Pairwise fun a b => a.position < b.position := by
      refine List.pairwise_cons.mpr ⟨?_, hlater⟩
      rcases better_eq_or s t with heq | heq
      · rw [heq]
        exact htl
      · rw [heq]
        exact ht
    obtain ⟨hbetter, hall⟩ := List.forall_mem_cons.mp (ih hbest)
    obtain ⟨hfirst, hsecond⟩ := better_precedes hst
    exact List.forall_mem_cons.mpr ⟨hbetter.trans hfirst,
      List.forall_mem_cons.mpr ⟨hbetter.trans hsecond, hall⟩⟩

theorem best?_precedes {candidates : List Selected} {s : Selected}
    (h : candidates.Pairwise fun a b => a.position < b.position)
    (hbest : best? candidates = some s) : ∀ x ∈ candidates, Precedes s x := by
  cases candidates with
  | nil => cases hbest
  | cons t rest =>
    cases hbest
    exact foldl_better_precedes h

/-! ## One selection -/

theorem pairwise_position_offers (trials : List Trial) (selected : List Selected) :
    (offers trials selected).Pairwise fun a b => a.position < b.position := by
  have hplaces : trials.zipIdx.Pairwise fun p q => p.2 < q.2 := by
    rw [← List.pairwise_map (f := Prod.snd), List.zipIdx_map_snd]
    exact List.pairwise_lt_range'
  refine List.Pairwise.filter _ (List.pairwise_map.mpr ?_)
  exact hplaces.filter _

theorem covers_ne_nil_of_select {s : Selected} (hnext : next trials all selected = .select s) :
    s.covers ≠ [] := by
  obtain ⟨-, -, -, -, hne⟩ := mem_offers.mp (mem_offers_of_select hnext)
  exact hne

/-- What is selected comes before every trial of the run, whether that makes an offer or not. -/
theorem Partial.precedes_of_select {s : Selected} (h : Partial trials selected)
    (hnext : next trials all selected = .select s) {i : Nat} {t : Trial}
    (ht : trials[i]? = some t) : Precedes s (offer (covered selected) t i) := by
  by_cases hadds : (offer (covered selected) t i).covers = []
  · -- a trial that adds nothing comes after one that adds something
    refine .inl ?_
    rw [hadds]
    exact List.length_pos_iff.mpr (covers_ne_nil_of_select hnext)
  · have hfree : i ∉ taken selected := by
      intro htaken
      obtain ⟨s', hs', rfl⟩ := List.mem_map.mp htaken
      have heq : s'.trial = t := Option.some.inj ((h.placed s' hs').symm.trans ht)
      refine hadds (List.filter_eq_nil_iff.mpr fun σ hσ => ?_)
      simpa using h.exhausted s' hs' (heq ▸ hσ)
    exact best?_precedes (pairwise_position_offers trials selected) (next_eq_select hnext) _
      (mem_offers.mpr ⟨t, ht, hfree, rfl, hadds⟩)

/-- No trial adds more signatures than what is selected, and none of those that add as many has
a smaller index. -/
theorem Partial.gain_of_select {s : Selected} (h : Partial trials selected)
    (hnext : next trials all selected = .select s) {t : Trial} (ht : t ∈ trials) :
    gain (covered selected) t < s.covers.length ∨
      (gain (covered selected) t = s.covers.length ∧ s.trial.index ≤ t.index) := by
  obtain ⟨i, hi⟩ := List.getElem?_of_mem ht
  rcases h.precedes_of_select hnext hi with hless | ⟨heq, hindex | ⟨hindex, -⟩⟩
  · exact .inl hless
  · exact .inr ⟨heq, Nat.le_of_lt hindex⟩
  · exact .inr ⟨heq, Nat.le_of_eq hindex⟩

theorem trial_mem_of_select {s : Selected} (hnext : next trials all selected = .select s) :
    s.trial ∈ trials := by
  obtain ⟨t, ht, -, hoffer, -⟩ := mem_offers.mp (mem_offers_of_select hnext)
  rw [hoffer]
  exact List.mem_of_getElem? ht

theorem covers_of_select {s : Selected} (hnext : next trials all selected = .select s) :
    s.covers = s.trial.signatures.filter fun σ => σ ∉ covered selected := by
  obtain ⟨t, -, -, hoffer, -⟩ := mem_offers.mp (mem_offers_of_select hnext)
  rw [hoffer]
  rfl

theorem nodup_covers_of_select {s : Selected} (hnext : next trials all selected = .select s) :
    s.covers.Nodup := by
  rw [covers_of_select hnext]
  exact s.trial.nodup_signatures.filter _

theorem mem_covers_of_select {s : Selected} (hnext : next trials all selected = .select s)
    {σ : Signature} : σ ∈ s.covers ↔ σ ∈ s.trial.signatures ∧ σ ∉ covered selected := by
  rw [covers_of_select hnext, List.mem_filter, decide_eq_true_eq]

theorem length_covers_of_select {s : Selected} (hnext : next trials all selected = .select s) :
    s.covers.length = gain (covered selected) s.trial := by
  rw [covers_of_select hnext]
  rfl

/-! ## A run of selections -/

theorem selectFrom_eq (trials : List Trial) (all : List Signature) (selected : List Selected) :
    selectFrom trials all selected =
      match next trials all selected with
      | .select s => selectFrom trials all (selected ++ [s])
      | .complete | .stuck => selected := by
  rw [selectFrom]
  split
  · next hnext => rw [hnext]
  · next hnext => rw [hnext]
  · next hnext => rw [hnext]

theorem selectFrom_of_select {s : Selected} (h : next trials all selected = .select s) :
    selectFrom trials all selected = selectFrom trials all (selected ++ [s]) := by
  rw [selectFrom_eq, h]

theorem selectFrom_of_complete (h : next trials all selected = .complete) :
    selectFrom trials all selected = selected := by
  rw [selectFrom_eq, h]

theorem selectFrom_of_stuck (h : next trials all selected = .stuck) :
    selectFrom trials all selected = selected := by
  rw [selectFrom_eq, h]

theorem prefix_selectFrom (trials : List Trial) (all : List Signature)
    (selected : List Selected) : selected <+: selectFrom trials all selected := by
  fun_induction selectFrom trials all selected with
  | case1 selected s hselect ih => exact (List.prefix_append selected [s]).trans ih
  | case2 selected hcomplete => exact List.prefix_rfl
  | case3 selected hstuck => exact List.prefix_rfl

/-- Each trial that a run selects is the choice after those before it, which keep the
invariant. -/
theorem Partial.next_take {k : Nat} {s : Selected} (h : Partial trials selected)
    (hk : selected.length ≤ k) (hs : (selectFrom trials all selected)[k]? = some s) :
    Partial trials ((selectFrom trials all selected).take k) ∧
      next trials all ((selectFrom trials all selected).take k) = .select s := by
  fun_induction selectFrom trials all selected with
  | case1 selected first hselect ih =>
    rcases Nat.eq_or_lt_of_le hk with rfl | hlt
    · obtain ⟨later, hlater⟩ := prefix_selectFrom trials all (selected ++ [first])
      rw [← hlater, List.append_assoc] at hs ⊢
      rw [List.getElem?_append_right (Nat.le_refl _), Nat.sub_self] at hs
      rw [List.take_left]
      cases hs
      exact ⟨h, hselect⟩
    · refine ih (h.select hselect) ?_ hs
      rw [List.length_append]
      exact hlt
  | case2 selected hcomplete =>
    rw [List.getElem?_eq_none hk] at hs
    cases hs
  | case3 selected hstuck =>
    rw [List.getElem?_eq_none hk] at hs
    cases hs

theorem next_take_ofTrials {k : Nat} {s : Selected} (hs : (ofTrials trials)[k]? = some s) :
    Partial trials ((ofTrials trials).take k) ∧
      next trials (allSignatures trials) ((ofTrials trials).take k) = .select s :=
  (partial_nil trials).next_take (Nat.zero_le k) hs

/-- The more is covered, the less a trial adds. -/
theorem gain_anti {before after : List Signature} (h : before ⊆ after) (t : Trial) :
    gain after t ≤ gain before t := by
  refine (List.monotone_filter_right _ fun σ hσ => ?_).length_le
  rw [decide_eq_true_eq] at hσ ⊢
  exact fun hmem => hσ (h hmem)

theorem covered_take_subset {j k : Nat} (h : j ≤ k) (selected : List Selected) :
    covered (selected.take j) ⊆ covered (selected.take k) := by
  intro σ hσ
  obtain ⟨s, hs, hσs⟩ := mem_covered.mp hσ
  exact mem_covered.mpr ⟨s, List.take_subset_take_left selected h hs, hσs⟩

/-- Each trial of the concise set adds all its signatures that the ones selected before it do not
cover, and no trial of the run adds more to those; one that adds as many has a greater index, or
the same index and no earlier place.  So the trials of the concise set add less and less. -/
theorem ofTrials_greedy (trials : List Trial) :
    (∀ k s, (ofTrials trials)[k]? = some s →
      let before := covered ((ofTrials trials).take k)
      trials[s.position]? = some s.trial ∧
        (s.covers = s.trial.signatures.filter fun σ => σ ∉ before) ∧
        ∀ i t, trials[i]? = some t → gain before t ≤ s.covers.length ∧
          (gain before t = s.covers.length → s.trial.index < t.index ∨
            (s.trial.index = t.index ∧ s.position ≤ i))) ∧
    (ofTrials trials).Pairwise fun a b => b.covers.length ≤ a.covers.length := by
  have hchoice (k : Nat) (s : Selected) (hs : (ofTrials trials)[k]? = some s) :
      s.covers = s.trial.signatures.filter (fun σ => σ ∉ covered ((ofTrials trials).take k)) ∧
        ∀ i t, trials[i]? = some t →
          Precedes s (offer (covered ((ofTrials trials).take k)) t i) := by
    obtain ⟨hpartial, hnext⟩ := (partial_nil trials).next_take (Nat.zero_le k) hs
    exact ⟨covers_of_select hnext, fun i t => hpartial.precedes_of_select hnext⟩
  have hplaced : ∀ s ∈ ofTrials trials, trials[s.position]? = some s.trial :=
    (ofTrials_partial trials).1.placed
  refine ⟨?greedy, ?sizes⟩
  case greedy =>
    intro k s hs before
    obtain ⟨hcovers, hprecedes⟩ := hchoice k s hs
    refine ⟨hplaced s (List.mem_of_getElem? hs), hcovers, fun i t ht => ?_⟩
    rcases hprecedes i t ht with hless | ⟨heq, htie⟩
    · exact ⟨Nat.le_of_lt hless, fun heq => absurd heq (Nat.ne_of_lt hless)⟩
    · exact ⟨Nat.le_of_eq heq, fun _ => htie⟩
  case sizes =>
    refine List.pairwise_iff_getElem.mpr fun j k hj hk hjk => ?_
    have ha := List.getElem?_eq_getElem hj
    have hb := List.getElem?_eq_getElem hk
    generalize (ofTrials trials)[j] = a at ha ⊢
    generalize (ofTrials trials)[k] = b at hb ⊢
    -- the later trial could have been chosen at the earlier turn
    have hplace := hplaced b (List.mem_of_getElem? hb)
    have hearlier : gain (covered ((ofTrials trials).take j)) b.trial ≤ a.covers.length := by
      rcases (hchoice j a ha).2 b.position b.trial hplace with hless | ⟨heq, -⟩
      · exact Nat.le_of_lt hless
      · exact Nat.le_of_eq heq
    calc b.covers.length = gain (covered ((ofTrials trials).take k)) b.trial := by
          rw [(hchoice k b hb).1]
          rfl
      _ ≤ gain (covered ((ofTrials trials).take j)) b.trial :=
          gain_anti (covered_take_subset (Nat.le_of_lt hjk) _) b.trial
      _ ≤ a.covers.length := hearlier

/-- A trial of three candidates, those of which diverge that are named. -/
def diverging (index : Nat) (names : List String) : Trial where
  index := index
  input := []
  reference := .value "1"
  candidates := ["a", "b", "c"].map fun name =>
    ⟨name, .value (if name ∈ names then "2" else "1")⟩

/-- The second and the third trial are equally good, but for their places. -/
def overlapping : List Trial :=
  [diverging 0 ["a"], diverging 4 ["a", "b"], diverging 4 ["b", "c"]]

/-- The second is selected first, and then the third for what it still has to add. -/
theorem ofTrials_greedy_overlapping : ∃ s, (ofTrials overlapping)[1]? = some s ∧
    s.position = 2 ∧ s.covers = [⟨"c", .value, .value⟩] ∧
    ∀ (i : Nat) (t : Trial), overlapping[i]? = some t →
      gain (covered ((ofTrials overlapping).take 1)) t ≤ s.covers.length := by
  let wide : Selected := ⟨1, diverging 4 ["a", "b"],
    [⟨"a", .value, .value⟩, ⟨"b", .value, .value⟩]⟩
  let rest : Selected := ⟨2, diverging 4 ["b", "c"], [⟨"c", .value, .value⟩]⟩
  have hfirst : next overlapping (allSignatures overlapping) [] = .select wide := by cbv
  have hsecond : next overlapping (allSignatures overlapping) [wide] = .select rest := by cbv
  have hrun : (ofTrials overlapping)[1]? = some rest := by
    rw [ofTrials, selectFrom_of_select hfirst, List.nil_append, selectFrom_of_select hsecond]
    obtain ⟨later, hlater⟩ := prefix_selectFrom overlapping (allSignatures overlapping)
      ([wide] ++ [rest])
    rw [← hlater]
    rfl
  have hgreedy := (ofTrials_greedy overlapping).1 1 rest hrun
  exact ⟨rest, hrun, rfl, rfl, fun i t ht => (hgreedy.2.2 i t ht).1⟩

end Divergence.ConciseSet
