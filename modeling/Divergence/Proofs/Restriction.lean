/-
# `Divergence.Proofs.Restriction` — the choice does not depend on what is left out

The concise set stays the same when trials are left out, added or moved, as
long as those it selects are still there and none that diverges is new
(`picks_of_restricted`).  Two runs go in step.  Where they have picked the same
so far, each could have made the other's choice, so neither choice adds more
signatures than the other and neither has the smaller index.  Indexes tell
trials apart, so both choose the same trial.

Places differ between the two lists, and the rule that decides between equal
indexes by their places is never needed.  So selections are compared by what
they show, wherever it stands (`picks`).

There are two cases of this: two lists whose divergent trials are the same in
any order, and a list next to the trials selected from it.
-/
import Divergence.Proofs.Greedy

namespace Divergence.ConciseSet

open Ordered

variable {trials rest : List Trial} {selected selected' : List Selected}
  {all all' : List Signature} {s s' : Selected}

/-- What a selection shows: each trial, with all its outcomes, and the signatures it covers. -/
def picks (selected : List Selected) : List (Trial × List Signature) :=
  selected.map fun s => (s.trial, s.covers)

theorem covered_eq_flatMap_picks (selected : List Selected) :
    covered selected = (picks selected).flatMap Prod.snd := by
  rw [picks, List.flatMap_map]
  rfl

theorem covered_eq_of_picks_eq (h : picks selected = picks selected') :
    covered selected = covered selected' := by
  rw [covered_eq_flatMap_picks, h, ← covered_eq_flatMap_picks]

/-! ## One choice in two lists -/

/-- Two runs that have covered the same choose the same, if each could have made the other's
choice. -/
theorem Partial.trial_eq_of_select (h : Partial trials selected) (h' : Partial rest selected')
    (hindex : (trials.map Trial.index).Nodup) (hcovered : covered selected' = covered selected)
    (hs : next trials all selected = .select s) (hs' : next rest all' selected' = .select s')
    (hrest : s.trial ∈ rest) (htrials : s'.trial ∈ trials) : s'.trial = s.trial := by
  have hadds : s.covers.length = gain (covered selected) s.trial := length_covers_of_select hs
  have hadds' : s'.covers.length = gain (covered selected) s'.trial := by
    rw [← hcovered]
    exact length_covers_of_select hs'
  have hother := h.gain_of_select hs htrials
  have hthis := h'.gain_of_select hs' hrest
  rw [hcovered] at hthis
  have hsame : s'.trial.index = s.trial.index := by omega
  exact List.inj_on_of_nodup_map hindex htrials (trial_mem_of_select hs) hsame

/-! ## Two runs in step -/

/-- The trials of the second list are among those of the first, as far as they diverge, and
exhibit the same signatures. -/
structure Restricts (rest trials : List Trial) : Prop where
  divergent : ∀ t ∈ rest, t.isDivergent = true → t ∈ trials
  signatures : allSignatures rest = allSignatures trials

/-- Where the same has been picked, the next choice is the same, if the second list has it. -/
theorem Partial.exists_next (h : Partial trials selected) (h' : Partial rest selected')
    (hindex : (trials.map Trial.index).Nodup) (hrestricts : Restricts rest trials)
    (hpicks : picks selected' = picks selected)
    (hs : next trials (allSignatures trials) selected = .select s) (hrest : s.trial ∈ rest) :
    ∃ s', next rest (allSignatures rest) selected' = .select s' ∧
      picks (selected' ++ [s']) = picks (selected ++ [s]) := by
  have hcovered : covered selected' = covered selected := covered_eq_of_picks_eq hpicks
  have hlt : (covered selected).length < (allSignatures trials).length := by
    by_contra hle
    rw [next, if_neg hle] at hs
    cases hs
  cases hnext : next rest (allSignatures rest) selected' with
  | complete =>
    have hle := next_eq_complete hnext
    rw [hcovered, hrestricts.signatures] at hle
    omega
  | stuck => exact absurd hnext h'.next_ne_stuck
  | select s' =>
    have hdivergent : s'.trial.isDivergent = true :=
      (h'.select hnext).isDivergent s' List.mem_concat_self
    have htrials : s'.trial ∈ trials :=
      hrestricts.divergent s'.trial (trial_mem_of_select hnext) hdivergent
    have htrial : s'.trial = s.trial :=
      h.trial_eq_of_select h' hindex hcovered hs hnext hrest htrials
    have hcovers : s'.covers = s.covers := by
      rw [covers_of_select hnext, covers_of_select hs, htrial, hcovered]
    refine ⟨s', rfl, ?_⟩
    rw [picks, picks, List.map_append, List.map_append]
    show picks selected' ++ [(s'.trial, s'.covers)] = picks selected ++ [(s.trial, s.covers)]
    rw [hpicks, htrial, hcovers]

/-- The second run picks the same until the first ends, and then it ends too. -/
theorem Partial.picks_selectFrom (h : Partial trials selected) (h' : Partial rest selected')
    (hindex : (trials.map Trial.index).Nodup) (hrestricts : Restricts rest trials)
    (hpicks : picks selected' = picks selected)
    (hrest : ∀ s ∈ selectFrom trials (allSignatures trials) selected, s.trial ∈ rest) :
    picks (selectFrom rest (allSignatures rest) selected') =
      picks (selectFrom trials (allSignatures trials) selected) := by
  fun_induction selectFrom trials (allSignatures trials) selected generalizing selected' with
  | case1 selected s hselect ih =>
    have hs : s.trial ∈ rest :=
      hrest s ((prefix_selectFrom trials _ (selected ++ [s])).subset List.mem_concat_self)
    obtain ⟨s', hselect', hpicks'⟩ := h.exists_next h' hindex hrestricts hpicks hselect hs
    rw [selectFrom_of_select hselect']
    exact ih (h.select hselect) (h'.select hselect') hpicks' hrest
  | case2 selected hcomplete =>
    have hend : next rest (allSignatures rest) selected' = .complete := by
      rw [next, hrestricts.signatures, covered_eq_of_picks_eq hpicks]
      exact if_neg (Nat.not_lt.mpr (next_eq_complete hcomplete))
    rw [selectFrom_of_complete hend]
    exact hpicks
  | case3 selected hstuck => exact absurd hstuck h.next_ne_stuck

/-- Leaving out trials that are not selected, and adding or moving trials that do not diverge,
changes nothing. -/
theorem picks_of_restricted (hindex : (trials.map Trial.index).Nodup)
    (hselected : ∀ s ∈ ofTrials trials, s.trial ∈ rest)
    (hrest : ∀ t ∈ rest, t.isDivergent = true → t ∈ trials) :
    picks (ofTrials rest) = picks (ofTrials trials) := by
  obtain ⟨hpartial, hcomplete⟩ := ofTrials_partial trials
  have hsignatures (σ : Signature) :
      σ ∈ rest.flatMap Trial.signatures ↔ σ ∈ allSignatures trials := by
    rw [List.mem_flatMap]
    constructor
    · rintro ⟨t, ht, hσ⟩
      have hdivergent : t.isDivergent = true := Trial.signatures_ne_nil.mp (List.ne_nil_of_mem hσ)
      exact mem_allSignatures.mpr ⟨t, hrest t ht hdivergent, hσ⟩
    · intro hσ
      obtain ⟨s, hs, hσs⟩ := mem_covered.mp ((hpartial.mem_covered_iff hcomplete).mpr hσ)
      exact ⟨s.trial, hselected s hs, hpartial.exhibits s hs hσs⟩
  have hrestricts : Restricts rest trials :=
    ⟨hrest, byKey_eq_of_mem_iff (increasing_byKey _) hsignatures⟩
  exact (partial_nil trials).picks_selectFrom (partial_nil rest) hindex hrestricts rfl hselected

/-! ## The order of the trials, and a second selection -/

/-- The concise set depends only on which trials diverge: not on their order, and not on the
trials that agree. -/
theorem picks_ofTrials_of_perm {first second : List Trial}
    (hindex : (first.map Trial.index).Nodup)
    (hperm : (first.filter Trial.isDivergent).Perm (second.filter Trial.isDivergent)) :
    picks (ofTrials first) = picks (ofTrials second) := by
  have hmem (t : Trial) (ht : t.isDivergent = true) : t ∈ first ↔ t ∈ second := by
    have h := hperm.mem_iff (a := t)
    rwa [List.mem_filter, List.mem_filter, and_iff_left ht, and_iff_left ht] at h
  obtain ⟨hpartial, -⟩ := ofTrials_partial first
  symm
  refine picks_of_restricted hindex (fun s hs => ?_) (fun t ht hdivergent => ?_)
  · exact (hmem s.trial (hpartial.isDivergent s hs)).mp (hpartial.trial_mem hs)
  · exact (hmem t hdivergent).mpr ht

/-- Trials with different indexes, one of which does not diverge. -/
def spread : List Trial :=
  [diverging 3 ["a"], diverging 4 ["a", "b"], diverging 5 [], diverging 2 ["b", "c"]]

theorem nodup_index_spread : (spread.map Trial.index).Nodup := by decide

/-- Of the two widest trials the one with the smaller index is selected, and then of the two that
exhibit the last signature. -/
theorem ofTrials_spread : ofTrials spread =
    [⟨3, diverging 2 ["b", "c"], [⟨"b", .value, .value⟩, ⟨"c", .value, .value⟩]⟩,
      ⟨0, diverging 3 ["a"], [⟨"a", .value, .value⟩]⟩] := by
  let wide : Selected := ⟨3, diverging 2 ["b", "c"],
    [⟨"b", .value, .value⟩, ⟨"c", .value, .value⟩]⟩
  let last : Selected := ⟨0, diverging 3 ["a"], [⟨"a", .value, .value⟩]⟩
  let all : List Signature :=
    [⟨"a", .value, .value⟩, ⟨"b", .value, .value⟩, ⟨"c", .value, .value⟩]
  have hall : allSignatures spread = all := by cbv
  have hfirst : next spread all [] = .select wide := by cbv
  have hsecond : next spread all [wide] = .select last := by cbv
  have hend : next spread all [wide, last] = .complete := by cbv
  rw [ofTrials, hall, selectFrom_of_select hfirst, List.nil_append, selectFrom_of_select hsecond,
    List.singleton_append, selectFrom_of_complete hend]

/-- The trials of `spread` that diverge in another order, and another one that does not. -/
def shuffled : List Trial :=
  [diverging 2 ["b", "c"], diverging 0 [], diverging 3 ["a"], diverging 4 ["a", "b"]]

theorem picks_ofTrials_of_perm_shuffled : (spread.map Trial.index).Nodup ∧
    (spread.filter Trial.isDivergent).Perm (shuffled.filter Trial.isDivergent) ∧
    picks (ofTrials shuffled) =
      [(diverging 2 ["b", "c"], [⟨"b", .value, .value⟩, ⟨"c", .value, .value⟩]),
        (diverging 3 ["a"], [⟨"a", .value, .value⟩])] := by
  have hperm : (spread.filter Trial.isDivergent).Perm (shuffled.filter Trial.isDivergent) := by
    show ([diverging 3 ["a"], diverging 4 ["a", "b"]] ++ [diverging 2 ["b", "c"]]).Perm
      ([diverging 2 ["b", "c"]] ++ [diverging 3 ["a"], diverging 4 ["a", "b"]])
    exact List.perm_append_comm
  refine ⟨nodup_index_spread, hperm, ?_⟩
  rw [← picks_ofTrials_of_perm nodup_index_spread hperm, ofTrials_spread]
  rfl

/-- Selecting from the selected trials, in any order, selects all of them again, in the order
and with the covers they had. -/
theorem picks_ofTrials_of_selected {again : List Trial}
    (hindex : (trials.map Trial.index).Nodup)
    (hperm : again.Perm ((ofTrials trials).map Selected.trial)) :
    picks (ofTrials again) = picks (ofTrials trials) := by
  obtain ⟨hpartial, -⟩ := ofTrials_partial trials
  refine picks_of_restricted hindex (fun s hs => ?_) (fun t ht _ => ?_)
  · exact hperm.mem_iff.mpr (List.mem_map_of_mem hs)
  · obtain ⟨s, hs, rfl⟩ := List.mem_map.mp (hperm.mem_iff.mp ht)
    exact hpartial.trial_mem hs

/-- The trials selected from `spread`, the last one first. -/
theorem picks_ofTrials_of_selected_reversed : (spread.map Trial.index).Nodup ∧
    [diverging 3 ["a"], diverging 2 ["b", "c"]].Perm ((ofTrials spread).map Selected.trial) ∧
    picks (ofTrials [diverging 3 ["a"], diverging 2 ["b", "c"]]) =
      [(diverging 2 ["b", "c"], [⟨"b", .value, .value⟩, ⟨"c", .value, .value⟩]),
        (diverging 3 ["a"], [⟨"a", .value, .value⟩])] := by
  have hperm : [diverging 3 ["a"], diverging 2 ["b", "c"]].Perm
      ((ofTrials spread).map Selected.trial) := by
    rw [ofTrials_spread]
    exact List.reverse_perm [diverging 2 ["b", "c"], diverging 3 ["a"]]
  refine ⟨nodup_index_spread, hperm, ?_⟩
  rw [picks_ofTrials_of_selected nodup_index_spread hperm, ofTrials_spread]
  rfl

end Divergence.ConciseSet
