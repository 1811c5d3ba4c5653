/-
# `Divergence.Proofs.Redundancy` — which selected trials could be left out

The choices are made one after the other and none is taken back, so trials
selected later may together exhibit again all that an earlier one was selected
for.  Then nothing would be lost without the earlier one: the concise set is
not always minimal (`ofTrials_not_needed`).

This is the only way.  A trial brings signatures that none before it exhibits,
so it is needed unless the ones after it exhibit each of them again
(`ofTrials_needed_iff`).  One trial alone never does: it would have added more
at the earlier turn (`Partial.not_covers_subset`).  So the last two trials are
needed in any case.
-/
import Divergence.Proofs.Greedy

namespace Divergence.ConciseSet

variable {trials : List Trial} {selected : List Selected} {all : List Signature} {s : Selected}
  {σ : Signature}

/-- The signatures that the selected trials exhibit, whether they are the first to do so or
not. -/
def exhibited (selected : List Selected) : List Signature :=
  selected.flatMap fun s => s.trial.signatures

/-- Without the trial at this place of the selection a signature would be lost. -/
def Needed (selected : List Selected) (k : Nat) : Prop :=
  ∃ σ ∈ exhibited selected, σ ∉ exhibited (selected.eraseIdx k)

theorem mem_exhibited : σ ∈ exhibited selected ↔ ∃ s ∈ selected, σ ∈ s.trial.signatures :=
  List.mem_flatMap

/-- A trial is needed if it has a signature that neither the trials before it nor those after it
exhibit. -/
theorem needed_iff {k : Nat} (hs : selected[k]? = some s) :
    Needed selected k ↔ ∃ σ ∈ s.trial.signatures,
      σ ∉ exhibited (selected.take k) ∧ σ ∉ exhibited (selected.drop (k + 1)) := by
  have hsplit : selected = selected.take k ++ s :: selected.drop (k + 1) := by
    obtain ⟨hk, rfl⟩ := List.getElem?_eq_some_iff.mp hs
    rw [← List.drop_eq_getElem_cons hk, List.take_append_drop]
  have hothers (σ : Signature) : σ ∉ exhibited (selected.eraseIdx k) ↔
      σ ∉ exhibited (selected.take k) ∧ σ ∉ exhibited (selected.drop (k + 1)) := by
    rw [List.eraseIdx_eq_take_drop_succ, exhibited, List.flatMap_append, List.mem_append, not_or]
    rfl
  constructor
  · rintro ⟨σ, hσ, hlost⟩
    obtain ⟨hbefore, hafter⟩ := (hothers σ).mp hlost
    refine ⟨σ, ?_, hbefore, hafter⟩
    rw [hsplit, exhibited, List.flatMap_append, List.flatMap_cons, List.mem_append,
      List.mem_append] at hσ
    rcases hσ with hσ | hσ | hσ
    · exact absurd hσ hbefore
    · exact hσ
    · exact absurd hσ hafter
  · rintro ⟨σ, hσ, hlost⟩
    exact ⟨σ, mem_exhibited.mpr ⟨s, List.mem_of_getElem? hs, hσ⟩, (hothers σ).mpr hlost⟩

/-- What selected trials exhibit is covered, by them or by those before them. -/
theorem Partial.mem_exhibited_iff (h : Partial trials selected) :
    σ ∈ exhibited selected ↔ σ ∈ covered selected := by
  rw [mem_exhibited]
  constructor
  · rintro ⟨s, hs, hσ⟩
    exact h.exhausted s hs hσ
  · intro hσ
    obtain ⟨s, hs, hσs⟩ := mem_covered.mp hσ
    exact ⟨s, hs, h.exhibits s hs hσs⟩

/-- A trial that has something left to add does not exhibit all that the selected one adds: it
would have been the better choice. -/
theorem Partial.not_covers_subset (h : Partial trials selected)
    (hnext : next trials all selected = .select s) {t : Trial} (ht : t ∈ trials)
    (hσ : σ ∈ t.signatures) (hleft : σ ∉ covered (selected ++ [s])) :
    ¬ s.covers ⊆ t.signatures := by
  intro hsub
  rw [covered_append, List.mem_append, not_or] at hleft
  obtain ⟨hfresh, hother⟩ := hleft
  have hnodup : (σ :: s.covers).Nodup :=
    List.nodup_cons.mpr ⟨hother, nodup_covers_of_select hnext⟩
  have hadds : σ :: s.covers ⊆ t.signatures.filter fun σ => σ ∉ covered selected := by
    refine List.cons_subset.mpr ⟨List.mem_filter.mpr ⟨hσ, decide_eq_true hfresh⟩, ?_⟩
    intro τ hτ
    have hτfresh : τ ∉ covered selected := ((mem_covers_of_select hnext).mp hτ).2
    exact List.mem_filter.mpr ⟨hsub hτ, decide_eq_true hτfresh⟩
  have hmore : s.covers.length + 1 ≤ gain (covered selected) t :=
    (List.subperm_of_subset hnodup hadds).length_le
  rcases h.gain_of_select hnext ht with hless | ⟨heq, -⟩
  · omega
  · omega

/-! ## Which trials of the concise set are needed -/

/-- What a trial was the first to cover is not exhibited again by one later trial alone. -/
theorem not_covers_subset_of_lt {j k : Nat} {a b : Selected} (hjk : j < k)
    (ha : (ofTrials trials)[j]? = some a) (hb : (ofTrials trials)[k]? = some b) :
    ¬ a.covers ⊆ b.trial.signatures := by
  obtain ⟨hpartial, hnext⟩ := next_take_ofTrials ha
  obtain ⟨-, hlater⟩ := next_take_ofTrials hb
  obtain ⟨σ, hσ⟩ := List.exists_mem_of_ne_nil _ (covers_ne_nil_of_select hlater)
  obtain ⟨hexhibits, hleft⟩ := (mem_covers_of_select hlater).mp hσ
  have htake : (ofTrials trials).take j ++ [a] = (ofTrials trials).take (j + 1) := by
    rw [List.take_add_one, ha]
    rfl
  refine hpartial.not_covers_subset hnext (trial_mem_of_select hlater) hexhibits ?_
  intro hcovered
  rw [htake] at hcovered
  exact hleft (covered_take_subset hjk (ofTrials trials) hcovered)

/-- No selected trial exhibits all signatures of another. -/
theorem not_signatures_subset {j k : Nat} {a b : Selected} (hjk : j ≠ k)
    (ha : (ofTrials trials)[j]? = some a) (hb : (ofTrials trials)[k]? = some b) :
    ¬ a.trial.signatures ⊆ b.trial.signatures := by
  intro hsub
  obtain ⟨hpartial, hnext⟩ := next_take_ofTrials ha
  rcases Nat.lt_or_gt_of_ne hjk with hlt | hgt
  · refine not_covers_subset_of_lt hlt ha hb fun σ hσ => ?_
    exact hsub ((mem_covers_of_select hnext).mp hσ).1
  · -- an earlier trial exhibits nothing of what this one was the first to cover
    obtain ⟨σ, hσ⟩ := List.exists_mem_of_ne_nil _ (covers_ne_nil_of_select hnext)
    obtain ⟨hexhibits, hfresh⟩ := (mem_covers_of_select hnext).mp hσ
    have hbefore : b ∈ (ofTrials trials).take j := by
      rw [← List.getElem?_take_of_lt hgt] at hb
      exact List.mem_of_getElem? hb
    exact hfresh (hpartial.exhausted b hbefore (hsub hexhibits))

/-- A trial can only be needed for what it was the first to cover, and it is, unless all of that
is exhibited again. -/
theorem needed_iff_exists_covers {k : Nat} (hs : (ofTrials trials)[k]? = some s) :
    Needed (ofTrials trials) k ↔
      ∃ σ ∈ s.covers, σ ∉ exhibited ((ofTrials trials).drop (k + 1)) := by
  obtain ⟨hpartial, hnext⟩ := next_take_ofTrials hs
  rw [needed_iff hs]
  refine exists_congr fun σ => ?_
  rw [mem_covers_of_select hnext, hpartial.mem_exhibited_iff, and_assoc]

theorem needed_of_length_le {k : Nat} (hs : (ofTrials trials)[k]? = some s)
    (hlength : (ofTrials trials).length ≤ k + 2) : Needed (ofTrials trials) k := by
  have hfollows (t : Selected) (ht : t ∈ (ofTrials trials).drop (k + 1)) :
      (ofTrials trials)[k + 1]? = some t := by
    obtain ⟨i, hi⟩ := List.getElem?_of_mem ht
    rw [List.getElem?_drop] at hi
    have hbound : k + 1 + i < (ofTrials trials).length := (List.getElem?_eq_some_iff.mp hi).1
    have hfirst : i = 0 := by omega
    rwa [hfirst] at hi
  rw [needed_iff_exists_covers hs]
  by_contra hall
  push Not at hall
  obtain ⟨-, hnext⟩ := next_take_ofTrials hs
  obtain ⟨σ, hσ⟩ := List.exists_mem_of_ne_nil _ (covers_ne_nil_of_select hnext)
  obtain ⟨t, ht, -⟩ := mem_exhibited.mp (hall σ hσ)
  -- the one trial that follows would exhibit again all that this one covers
  refine not_covers_subset_of_lt (Nat.lt_succ_self k) hs (hfollows t ht) fun τ hτ => ?_
  obtain ⟨t', ht', hτt⟩ := mem_exhibited.mp (hall τ hτ)
  have hsame : t' = t := Option.some.inj ((hfollows t' ht').symm.trans (hfollows t ht))
  exact hsame ▸ hτt

/-- A trial of the concise set is needed if and only if one of the signatures that it was the
first to cover is not exhibited again by the trials selected after it.  No other selected trial
exhibits all its signatures, so it takes at least two to make it redundant, and the last two
trials are needed. -/
theorem ofTrials_needed_iff (trials : List Trial) (k : Nat) (s : Selected)
    (hs : (ofTrials trials)[k]? = some s) :
    (Needed (ofTrials trials) k ↔
      ∃ σ ∈ s.covers, σ ∉ exhibited ((ofTrials trials).drop (k + 1))) ∧
    (∀ j t, j ≠ k → (ofTrials trials)[j]? = some t → ¬ s.trial.signatures ⊆ t.trial.signatures) ∧
    ((ofTrials trials).length ≤ k + 2 → Needed (ofTrials trials) k) :=
  ⟨needed_iff_exists_covers hs, fun _ _ hjk ht => not_signatures_subset hjk.symm hs ht,
    needed_of_length_le hs⟩

/-- A trial in which two candidates diverge, with these outcomes. -/
def bothDiverging (index : Nat) (a b : Outcome) : Trial where
  index := index
  input := []
  reference := .value "1"
  candidates := [⟨"a", a⟩, ⟨"b", b⟩]

/-- The first trial has one signature in common with the second and the other with the third. -/
def crossing : List Trial :=
  [bothDiverging 0 (.value "2") (.failure (.timeout 20)),
    bothDiverging 1 (.value "2") (.value "2"),
    bothDiverging 2 (.failure (.timeout 20)) (.failure (.timeout 20))]

/-- All are equally good at first, so the first is selected, and then each of the others for the
signature it has left. -/
theorem ofTrials_crossing : ofTrials crossing =
    [⟨0, bothDiverging 0 (.value "2") (.failure (.timeout 20)),
        [⟨"a", .value, .value⟩, ⟨"b", .value, .timeout⟩]⟩,
      ⟨1, bothDiverging 1 (.value "2") (.value "2"), [⟨"b", .value, .value⟩]⟩,
      ⟨2, bothDiverging 2 (.failure (.timeout 20)) (.failure (.timeout 20)),
        [⟨"a", .value, .timeout⟩]⟩] := by
  let first : Selected := ⟨0, bothDiverging 0 (.value "2") (.failure (.timeout 20)),
    [⟨"a", .value, .value⟩, ⟨"b", .value, .timeout⟩]⟩
  let second : Selected := ⟨1, bothDiverging 1 (.value "2") (.value "2"), [⟨"b", .value, .value⟩]⟩
  let third : Selected := ⟨2, bothDiverging 2 (.failure (.timeout 20)) (.failure (.timeout 20)),
    [⟨"a", .value, .timeout⟩]⟩
  let all : List Signature :=
    [⟨"a", .value, .value⟩, ⟨"a", .value, .timeout⟩, ⟨"b", .value, .value⟩, ⟨"b", .value, .timeout⟩]
  have hall : allSignatures crossing = all := by cbv
  have hfirst : next crossing all [] = .select first := by cbv
  have hsecond : next crossing all [first] = .select second := by cbv
  have hthird : next crossing all [first, second] = .select third := by cbv
  have hend : next crossing all [first, second, third] = .complete := by cbv
  rw [ofTrials, hall, selectFrom_of_select hfirst, List.nil_append, selectFrom_of_select hsecond,
    List.singleton_append, selectFrom_of_select hthird]
  exact selectFrom_of_complete hend

/-- The second of the trials selected from `crossing` is needed, and the first does not exhibit all
its signatures. -/
theorem ofTrials_needed_iff_crossing : ∃ s t, (ofTrials crossing)[1]? = some s ∧
    (ofTrials crossing)[0]? = some t ∧ Needed (ofTrials crossing) 1 ∧
    ¬ s.trial.signatures ⊆ t.trial.signatures := by
  have hs : (ofTrials crossing)[1]? = some
      ⟨1, bothDiverging 1 (.value "2") (.value "2"), [⟨"b", .value, .value⟩]⟩ := by
    rw [ofTrials_crossing]
    rfl
  have ht : (ofTrials crossing)[0]? = some
      ⟨0, bothDiverging 0 (.value "2") (.failure (.timeout 20)),
        [⟨"a", .value, .value⟩, ⟨"b", .value, .timeout⟩]⟩ := by
    rw [ofTrials_crossing]
    rfl
  have hlength : (ofTrials crossing).length ≤ 1 + 2 := by
    rw [ofTrials_crossing]
    exact Nat.le_refl 3
  obtain ⟨-, hsubsumed, hlast⟩ := ofTrials_needed_iff crossing 1 _ hs
  exact ⟨_, _, hs, ht, hlast hlength, hsubsumed 0 _ Nat.zero_ne_one ht⟩

/-- Not every selected trial is needed: the second and the third trial of `crossing` exhibit
together what the first was selected for. -/
theorem ofTrials_not_needed :
    (ofTrials crossing).length = 3 ∧ ¬ Needed (ofTrials crossing) 0 := by
  have hagain : (exhibited (ofTrials crossing)).all
      (fun σ => σ ∈ exhibited ((ofTrials crossing).eraseIdx 0)) = true := by
    rw [ofTrials_crossing]
    cbv
  refine ⟨?_, ?_⟩
  · rw [ofTrials_crossing]
    rfl
  · rintro ⟨σ, hσ, hlost⟩
    exact hlost (of_decide_eq_true (List.all_eq_true.mp hagain σ hσ))

end Divergence.ConciseSet
