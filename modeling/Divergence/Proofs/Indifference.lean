/-
# `Divergence.Proofs.Indifference` — details do not decide what is selected

Two runs of the same behaviour differ in messages, in durations, in exit codes and in what is
written to the error output.  If such details decided which trials are selected, the concise set
would change from run to run, and it could be steered by what an implementation writes into an
error message.

What is left of an outcome without them is its essence, and two outcomes agree exactly if
they have the same one (`agrees_iff`).  The selection looks at nothing else: each of its steps,
made on trials that were stripped of all details, is the step it makes on the trials
themselves, stripped afterwards (`next_map_essence`).  So runs that are alike are, when
stripped, one run, and select alike.
-/
import Divergence.Proofs.Greedy
import Mathlib.Data.List.Forall2

namespace Divergence

/-- Lists are related entry by entry if one image tells which entries are related. -/
theorem forall₂_iff_map_eq {α β : Type} {R : α → α → Prop} {f : α → β}
    (h : ∀ a b, R a b ↔ f a = f b) {as bs : List α} :
    List.Forall₂ R as bs ↔ as.map f = bs.map f := by
  have hR : R = fun a b => f a = f b := by
    funext a b
    exact propext (h a b)
  rw [hR, ← List.forall₂_eq_eq_eq, List.forall₂_map_left_iff, List.forall₂_map_right_iff]

/-! ## Outcomes -/

namespace Outcome

/-- The outcome with all details left out that have no part in agreement. -/
def essence : Outcome → Outcome
  | .value printed => .value printed
  | .failure (.raised exception _) => .failure (.raised exception "")
  | .failure (.timeout _) => .failure (.timeout 0)
  | .failure (.crashed _ _) => .failure (.crashed none "")

theorem essence_essence (a : Outcome) : a.essence.essence = a.essence := by
  rcases a with printed | ⟨exception, message⟩ | afterMs | ⟨code, stderr⟩ <;> rfl

theorem cls_essence (a : Outcome) : a.essence.cls = a.cls := by
  rcases a with printed | ⟨exception, message⟩ | afterMs | ⟨code, stderr⟩ <;> rfl

theorem agrees_iff {a b : Outcome} : a.agrees b = true ↔ a.essence = b.essence := by
  rcases a with p | ⟨exception, message⟩ | afterMs | ⟨code, stderr⟩ <;>
    rcases b with q | ⟨exception', message'⟩ | afterMs' | ⟨code', stderr'⟩ <;>
    simp [agrees, cls, essence]

theorem agrees_equivalence : Equivalence fun a b : Outcome => a.agrees b = true := by
  simp only [agrees_iff]
  exact ⟨fun _ => rfl, Eq.symm, Eq.trans⟩

theorem agrees_essence (a b : Outcome) : a.essence.agrees b.essence = a.agrees b := by
  rw [Bool.eq_iff_iff, agrees_iff, agrees_iff, essence_essence, essence_essence]

end Outcome

namespace CandidateOutcome

/-- The candidates have one name, and their outcomes agree. -/
structure Alike (a b : CandidateOutcome) : Prop where
  name : a.name = b.name
  outcome : a.outcome.agrees b.outcome = true

def essence (c : CandidateOutcome) : CandidateOutcome :=
  { c with outcome := c.outcome.essence }

theorem alike_iff (a b : CandidateOutcome) : a.Alike b ↔ a.essence = b.essence := by
  rw [essence, essence, CandidateOutcome.mk.injEq, ← Outcome.agrees_iff]
  exact ⟨fun h => ⟨h.name, h.outcome⟩, fun h => ⟨h.1, h.2⟩⟩

end CandidateOutcome

/-! ## Trials -/

namespace Trial

/-- The trials have one index, and all their outcomes agree, each with that of the same
implementation.  Their inputs may be any. -/
structure Alike (a b : Trial) : Prop where
  index : a.index = b.index
  reference : a.reference.agrees b.reference = true
  candidates : List.Forall₂ CandidateOutcome.Alike a.candidates b.candidates

/-- The trial without the details of its outcomes, and without its input. -/
def essence (t : Trial) : Trial where
  index := t.index
  input := []
  reference := t.reference.essence
  candidates := t.candidates.map CandidateOutcome.essence

/-- The name of each candidate, and whether it diverges. -/
def verdicts (t : Trial) : List (String × Bool) :=
  t.candidates.map fun c => (c.name, !c.outcome.agrees t.reference)

theorem alike_iff (a b : Trial) : a.Alike b ↔ a.essence = b.essence := by
  rw [essence, essence, Trial.mk.injEq, ← Outcome.agrees_iff,
    ← forall₂_iff_map_eq CandidateOutcome.alike_iff]
  constructor
  · intro h
    exact ⟨h.index, rfl, h.reference, h.candidates⟩
  · rintro ⟨hindex, -, hreference, hcandidates⟩
    exact ⟨hindex, hreference, hcandidates⟩

theorem verdicts_essence (t : Trial) : t.essence.verdicts = t.verdicts := by
  rw [verdicts, verdicts, essence, List.map_map]
  refine List.map_congr_left fun c _ => ?_
  exact congrArg (fun agrees => (c.name, !agrees)) (c.outcome.agrees_essence t.reference)

theorem divergent_essence (t : Trial) :
    t.essence.divergent = t.divergent.map CandidateOutcome.essence := by
  rw [divergent, divergent, essence, List.filter_map]
  congr 1
  refine List.filter_congr fun c _ => ?_
  exact congrArg not (c.outcome.agrees_essence t.reference)

theorem signatures_essence (t : Trial) : t.essence.signatures = t.signatures := by
  rw [signatures, signatures, divergent_essence, List.map_map]
  congr 1
  refine List.map_congr_left fun c _ => ?_
  show Signature.mk c.name t.reference.essence.cls c.outcome.essence.cls =
    Signature.mk c.name t.reference.cls c.outcome.cls
  rw [Outcome.cls_essence, Outcome.cls_essence]

/-- In trials that are alike the same candidates diverge, and in ways that are alike. -/
theorem Alike.divergent {a b : Trial} (h : a.Alike b) :
    a.verdicts = b.verdicts ∧ List.Forall₂ CandidateOutcome.Alike a.divergent b.divergent := by
  rw [forall₂_iff_map_eq CandidateOutcome.alike_iff, ← divergent_essence, ← divergent_essence,
    ← verdicts_essence a, ← verdicts_essence b, (alike_iff a b).mp h]
  exact ⟨rfl, rfl⟩

end Trial

/-! ## The selection -/

namespace Selected

/-- The trials stand at one place and cover the same signatures, and they are alike. -/
structure Alike (a b : Selected) : Prop where
  position : a.position = b.position
  covers : a.covers = b.covers
  trial : a.trial.Alike b.trial

def essence (s : Selected) : Selected :=
  { s with trial := s.trial.essence }

theorem alike_iff (a b : Selected) : a.Alike b ↔ a.essence = b.essence := by
  rw [essence, essence, Selected.mk.injEq, ← Trial.alike_iff]
  constructor
  · intro h
    exact ⟨h.position, h.trial, h.covers⟩
  · rintro ⟨hposition, htrial, hcovers⟩
    exact ⟨hposition, hcovers, htrial⟩

end Selected

namespace ConciseSet

variable (trials : List Trial) (all : List Signature) (selected : List Selected)

theorem allSignatures_map_essence :
    allSignatures (trials.map Trial.essence) = allSignatures trials := by
  simp only [allSignatures, List.flatMap_map, Trial.signatures_essence]

theorem covered_map_essence : covered (selected.map Selected.essence) = covered selected := by
  rw [covered, List.flatMap_map]
  rfl

theorem taken_map_essence : taken (selected.map Selected.essence) = taken selected := by
  rw [taken, List.map_map]
  rfl

theorem offers_map_essence :
    offers (trials.map Trial.essence) (selected.map Selected.essence) =
      (offers trials selected).map Selected.essence := by
  have hoffer (σs : List Signature) : (fun p : Trial × Nat => offer σs p.1 p.2) ∘
      Prod.map Trial.essence id = Selected.essence ∘ fun p => offer σs p.1 p.2 := by
    funext p
    show offer σs p.1.essence p.2 = (offer σs p.1 p.2).essence
    rw [offer, Trial.signatures_essence]
    rfl
  simp only [offers, covered_map_essence, taken_map_essence, List.zipIdx_map, List.filter_map,
    List.map_map, hoffer]
  rfl

theorem better_essence (a b : Selected) :
    better a.essence b.essence = (better a b).essence := by
  rw [better, better, apply_ite Selected.essence]
  rfl

theorem best?_map_essence :
    best? (selected.map Selected.essence) = (best? selected).map Selected.essence := by
  cases selected with
  | nil => rfl
  | cons s rest =>
    show some ((rest.map Selected.essence).foldl better s.essence) =
      some (rest.foldl better s).essence
    rw [List.foldl_map]
    exact congrArg some (List.foldl_hom Selected.essence fun a b => better_essence a b)

/-- The step without the details of what it selects. -/
def Step.essence : Step → Step
  | .complete => .complete
  | .stuck => .stuck
  | .select s => .select s.essence

theorem next_map_essence :
    next (trials.map Trial.essence) all (selected.map Selected.essence) =
      (next trials all selected).essence := by
  rw [next, next, covered_map_essence, offers_map_essence, best?_map_essence]
  split
  · cases best? (offers trials selected) with
    | none => rfl
    | some s => rfl
  · rfl

theorem selectFrom_map_essence :
    selectFrom (trials.map Trial.essence) all (selected.map Selected.essence) =
      (selectFrom trials all selected).map Selected.essence := by
  have hnext := next_map_essence trials all
  fun_induction selectFrom trials all selected with
  | case1 selected s hselect ih =>
    have hselect' := hnext selected
    rw [hselect] at hselect'
    rw [selectFrom_of_select hselect', ← ih, List.map_append]
    rfl
  | case2 selected hcomplete =>
    have hcomplete' := hnext selected
    rw [hcomplete] at hcomplete'
    exact selectFrom_of_complete hcomplete'
  | case3 selected hstuck =>
    have hstuck' := hnext selected
    rw [hstuck] at hstuck'
    exact selectFrom_of_stuck hstuck'

theorem ofTrials_map_essence :
    ofTrials (trials.map Trial.essence) = (ofTrials trials).map Selected.essence := by
  rw [ofTrials, allSignatures_map_essence]
  exact selectFrom_map_essence trials (allSignatures trials) []

/-- Outcomes are sorted by agreement into classes without overlap.  If the trials of two runs are
alike, place by place, then at each place the same candidates diverge, and the two runs select
trials at the same places, in the same order and with the same covers.  So the selection stays
the same if all messages, durations, exit codes, error outputs and inputs are taken away. -/
theorem ofTrials_indifferent :
    (Equivalence fun a b : Outcome => a.agrees b = true) ∧
    (∀ first second, List.Forall₂ Trial.Alike first second →
      List.Forall₂ (fun a b => a.verdicts = b.verdicts ∧
        List.Forall₂ CandidateOutcome.Alike a.divergent b.divergent) first second ∧
      List.Forall₂ Selected.Alike (ofTrials first) (ofTrials second)) ∧
    ∀ trials, ofTrials (trials.map Trial.essence) = (ofTrials trials).map Selected.essence := by
  refine ⟨Outcome.agrees_equivalence, ?alike, ofTrials_map_essence⟩
  case alike =>
    intro first second h
    refine ⟨h.imp fun _ _ halike => halike.divergent, ?_⟩
    rw [forall₂_iff_map_eq Selected.alike_iff, ← ofTrials_map_essence, ← ofTrials_map_essence,
      (forall₂_iff_map_eq Trial.alike_iff).mp h]

/-- A trial in which one candidate raises what the reference raises, one is killed and one dies. -/
def interrupted (input : Input) (message : String) (afterMs : Nat) (stderr : String) : Trial where
  index := 0
  input := input
  reference := .failure (.raised "KeyError" message)
  candidates := [⟨"a", .failure (.raised "KeyError" "")⟩, ⟨"b", .failure (.timeout afterMs)⟩,
    ⟨"c", .failure (.crashed none stderr)⟩]

theorem ofTrials_indifferent_interrupted :
    let first := interrupted [.int 7] "7" 10 "Segmentation fault"
    let second := interrupted [] "" 2000 ""
    List.Forall₂ Trial.Alike [first] [second] ∧
      ofTrials [first] =
        [⟨0, first, [⟨"b", .raised "KeyError", .timeout⟩, ⟨"c", .raised "KeyError", .crashed⟩]⟩] ∧
      List.Forall₂ Selected.Alike (ofTrials [first]) (ofTrials [second]) := by
  intro first second
  have halike : List.Forall₂ Trial.Alike [first] [second] :=
    (forall₂_iff_map_eq Trial.alike_iff).mpr rfl
  let all : List Signature :=
    [⟨"b", .raised "KeyError", .timeout⟩, ⟨"c", .raised "KeyError", .crashed⟩]
  have hall : allSignatures [first] = all := by cbv
  have hfirst : next [first] all [] = .select ⟨0, first, all⟩ := by cbv
  have hend : next [first] all [⟨0, first, all⟩] = .complete := by cbv
  refine ⟨halike, ?_, (ofTrials_indifferent.2.1 [first] [second] halike).2⟩
  rw [ofTrials, hall, selectFrom_of_select hfirst, List.nil_append, selectFrom_of_complete hend]

end ConciseSet

end Divergence
