/-
# `Divergence.Proofs.Trials` — what running one input after the other gives

The trial of an input is there if every call on it went well, and then it
`Records` them; otherwise its error is that of the first call that did not.
A run of several inputs has one trial for each, in order and numbered by place.

These are the two sides that other ways to run the inputs are compared with:
what calls were made and what came of each, in the order reference, then
candidates.
-/
import Divergence.Proofs.Results
import Divergence.Trial.Run

namespace Divergence

/-- The first error among several results. -/
def firstError? {α : Type} : List (Except RunError α) → Option RunError
  | [] => none
  | .error e :: _ => some e
  | .ok _ :: rest => firstError? rest

theorem firstError?_eq_none {α : Type} {results : List (Except RunError α)} :
    firstError? results = none ↔ ∀ x ∈ results, ∃ a, x = .ok a := by
  fun_induction firstError? results with
  | case1 => exact iff_of_true rfl fun x hx => absurd hx List.not_mem_nil
  | case2 e rest => simp
  | case3 a rest ih => simp [ih]

/-- What the implementations did on the input, reference first. -/
def Executor.results (e : Executor) (implementations : Implementations) (function : String)
    (input : Input) : List (Except RunError Outcome) :=
  implementations.all.map fun i => e.execute i function input

/-- A trial says what each implementation did on an input, the candidates in order and with
their names. -/
structure Trial.Records (e : Executor) (implementations : Implementations) (function : String)
    (x : Input) (t : Trial) : Prop where
  input : t.input = x
  reference : e.execute implementations.reference function x = .ok t.reference
  candidates : List.Forall₂
    (fun i c => c.name = i.name ∧ e.execute i function x = .ok c.outcome)
    implementations.candidates t.candidates

namespace Executor

variable {e : Executor} {implementations : Implementations} {function : String} {input : Input}

/-! ## Checks -/

theorem checkAll_eq_error {all : List Implementation} {err : RunError} :
    e.checkAll all = .error err ↔ firstError? (all.map e.check) = some err := by
  induction all with
  | nil => simp [checkAll, firstError?]
  | cons i rest ih =>
    rw [checkAll, List.map_cons]
    cases e.check i with
    | error err' => simp [firstError?, bind, Except.bind]
    | ok => exact ih

theorem checkAll_eq_ok {all : List Implementation} :
    e.checkAll all = .ok () ↔ firstError? (all.map e.check) = none := by
  cases h : e.checkAll all with
  | error err =>
    rw [checkAll_eq_error.mp h]
    exact iff_of_false (by simp) (by simp)
  | ok =>
    refine iff_of_true rfl ?_
    cases hfirst : firstError? (all.map e.check) with
    | none => rfl
    | some err =>
      rw [checkAll_eq_error.mpr hfirst] at h
      cases h

/-! ## Trials -/

theorem executeAll_eq_error {all : List Implementation} {err : RunError} :
    e.executeAll function input all = .error err ↔
      firstError? (all.map fun i => e.execute i function input) = some err := by
  induction all with
  | nil => simp [executeAll, firstError?]
  | cons i rest ih =>
    rw [executeAll, List.map_cons]
    cases e.execute i function input with
    | error err' => simp [firstError?, bind, Except.bind]
    | ok outcome =>
      rw [firstError?, ← ih, bind_eq_error]
      simp [bind_eq_error, pure, Except.pure]

theorem executeAll_eq_ok {all : List Implementation} {cs : List CandidateOutcome} :
    e.executeAll function input all = .ok cs ↔
      List.Forall₂ (fun i c => c.name = i.name ∧ e.execute i function input = .ok c.outcome)
        all cs := by
  induction all generalizing cs with
  | nil =>
    rw [List.forall₂_nil_left_iff, executeAll, Except.ok.injEq, eq_comm]
  | cons i rest ih =>
    simp only [executeAll, bind_eq_ok, ih, pure, Except.pure, Except.ok.injEq,
      List.forall₂_cons_left_iff]
    constructor
    · rintro ⟨outcome, ho, others, hothers, rfl⟩
      exact ⟨_, others, ⟨rfl, ho⟩, hothers, rfl⟩
    · rintro ⟨c, others, ⟨hname, ho⟩, hothers, rfl⟩
      refine ⟨c.outcome, ho, others, hothers, ?_⟩
      rw [← hname]

theorem trial_eq_ok {index : Nat} {t : Trial} :
    e.trial implementations function index input = .ok t ↔
      t.index = index ∧ t.Records e implementations function input := by
  simp only [trial, bind_eq_ok, executeAll_eq_ok, pure, Except.pure, Except.ok.injEq]
  constructor
  · rintro ⟨reference, hreference, candidates, hcandidates, rfl⟩
    exact ⟨rfl, rfl, hreference, hcandidates⟩
  · rintro ⟨rfl, hinput, hreference, hcandidates⟩
    refine ⟨t.reference, hreference, t.candidates, hcandidates, ?_⟩
    rw [← hinput]

theorem trial_eq_error {index : Nat} {err : RunError} :
    e.trial implementations function index input = .error err ↔
      firstError? (e.results implementations function input) = some err := by
  rw [results, Implementations.all, List.map_cons, trial, bind_eq_error]
  cases e.execute implementations.reference function input with
  | error err' => simp [firstError?]
  | ok reference =>
    rw [firstError?, ← executeAll_eq_error]
    simp [bind_eq_error, pure, Except.pure]

/-- There is a trial if no call ends in an error. -/
theorem exists_trial_iff {index : Nat} :
    (∃ t, e.trial implementations function index input = .ok t) ↔
      firstError? (e.results implementations function input) = none := by
  cases h : e.trial implementations function index input with
  | error err =>
    rw [trial_eq_error.mp h]
    exact iff_of_false (by simp) (by simp)
  | ok t =>
    refine iff_of_true ⟨t, rfl⟩ ?_
    cases hfirst : firstError? (e.results implementations function input) with
    | none => rfl
    | some err =>
      cases h.symm.trans (trial_eq_error.mpr hfirst)

/-! ## Runs -/

theorem trialsFrom_eq_mapM {index : Nat} {inputs : List Input} :
    e.trialsFrom implementations function index inputs =
      (inputs.zipIdx index).mapM fun p => e.trial implementations function p.2 p.1 := by
  induction inputs generalizing index with
  | nil => rfl
  | cons input rest ih =>
    rw [trialsFrom, List.zipIdx_cons, List.mapM_cons, ih]

/-- A run gives one trial for each input, at the place of the input. -/
theorem trialsFrom_eq_ok {index : Nat} {inputs : List Input} {trials : List Trial} :
    e.trialsFrom implementations function index inputs = .ok trials ↔
      trials.length = inputs.length ∧ ∀ i input, inputs[i]? = some input →
        ∃ t, trials[i]? = some t ∧
          e.trial implementations function (index + i) input = .ok t := by
  have hzip : (inputs.zipIdx index).length = inputs.length := List.length_zipIdx
  rw [trialsFrom_eq_mapM, mapM_eq_ok, List.forall₂_iff_get]
  simp only [List.get_eq_getElem, List.getElem_zipIdx]
  constructor
  · rintro ⟨hlength, hget⟩
    refine ⟨hlength.symm.trans hzip, ?_⟩
    intro i input hi
    obtain ⟨hlt, rfl⟩ := List.getElem?_eq_some_iff.mp hi
    have hlt' : i < (inputs.zipIdx index).length := by rwa [hzip]
    exact ⟨_, List.getElem?_eq_getElem (hlength ▸ hlt'), hget i hlt' (hlength ▸ hlt')⟩
  · rintro ⟨hlength, hget⟩
    refine ⟨hzip.trans hlength.symm, ?_⟩
    intro i hi _
    obtain ⟨t, ht, htrial⟩ := hget i _ (List.getElem?_eq_getElem (hzip ▸ hi))
    rwa [(List.getElem?_eq_some_iff.mp ht).2]

/-- The trials of a run are in the order of their indexes. -/
theorem pairwise_index_of_trialsFrom {index : Nat} {inputs : List Input} {trials : List Trial}
    (h : e.trialsFrom implementations function index inputs = .ok trials) :
    trials.Pairwise fun a b => a.index < b.index := by
  obtain ⟨hlength, hget⟩ := trialsFrom_eq_ok.mp h
  have hindex (i : Nat) (hi : i < trials.length) : trials[i].index = index + i := by
    obtain ⟨t, ht, htrial⟩ :=
      hget i _ (List.getElem?_eq_getElem (by rwa [← hlength]))
    rw [(List.getElem?_eq_some_iff.mp ht).2]
    exact (trial_eq_ok.mp htrial).1
  rw [List.pairwise_iff_getElem]
  intro i k hi hk hik
  rw [hindex i hi, hindex k hk]
  omega

/-- A run gives its trials if no call on any input ends in an error. -/
theorem exists_trialsFrom_iff {index : Nat} {inputs : List Input} :
    (∃ trials, e.trialsFrom implementations function index inputs = .ok trials) ↔
      ∀ input ∈ inputs, firstError? (e.results implementations function input) = none := by
  induction inputs generalizing index with
  | nil => exact iff_of_true ⟨[], rfl⟩ fun input h => absurd h List.not_mem_nil
  | cons input rest ih =>
    simp only [List.forall_mem_cons, trialsFrom, bind_eq_ok, pure, Except.pure, Except.ok.injEq]
    constructor
    · rintro ⟨_, t, ht, others, hothers, -⟩
      exact ⟨exists_trial_iff.mp ⟨t, ht⟩, ih.mp ⟨others, hothers⟩⟩
    · rintro ⟨hfirst, hrest⟩
      obtain ⟨t, ht⟩ := exists_trial_iff.mpr hfirst
      obtain ⟨others, hothers⟩ := ih.mpr hrest
      exact ⟨_, t, ht, others, hothers, rfl⟩

end Executor

end Divergence
