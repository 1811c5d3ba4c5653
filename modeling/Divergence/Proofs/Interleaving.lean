/-
# `Divergence.Proofs.Interleaving` — every schedule gives the sequential answer

However the work on several inputs is interleaved, and in whatever order trials
are handed in, a run that succeeds gives the trials that running one input after
the other gives, in the same order; a run that fails gives the error of one of
the inputs, and one that cannot begin makes no call at all.

The reason is `Invariant`.  Whatever a task has done so far is on course to
what its input leads to when it is run alone (`OnCourse`), and what has been handed
in is one trial for each task that has handed in one.  Once all have, the trials
are a rearrangement of the sequential ones, and sorting by index puts them into
their places.

That a run gives an answer at all has two parts: as long as there is none some
event is possible (`Invariant.exists_step`), and every event uses up work, of
which there is a fixed amount (`length_add_work_le`).
-/
import Divergence.Proofs.Trials
import Divergence.Trial.Schedule
import Mathlib.Algebra.GroupWithZero.Nat
import Mathlib.Data.List.Induction
import Mathlib.Data.List.Nodup

namespace Divergence.Schedule

variable {j : Job} {s s' : State}

/-! ## Events -/

/-- What an event does to a state in which it is possible. -/
inductive Step (j : Job) (s : State) : Event → State → Prop
  | start {i : Nat} : s.tasks[i]? = some .waiting → Job.inUse s < j.permits →
      Step j s (.start i) { s with tasks := s.tasks.set i .started }
  | call {i : Nat} {input : Input} {task task' : Task} : s.tasks[i]? = some task →
      j.inputs[i]? = some input → j.call? i input task = some task' →
      Step j s (.call i) { s with tasks := s.tasks.set i task' }
  | keep {i : Nat} {t : Trial} : s.tasks[i]? = some (.finished (.ok t)) →
      Step j s (.handIn i) { s with tasks := s.tasks.set i .handedIn, trials := t :: s.trials }
  | stop {i : Nat} {err : RunError} : s.tasks[i]? = some (.finished (.error err)) →
      Step j s (.handIn i) { s with error := some err }

theorem step_of_step? {e : Event} (h : j.step? s e = some s') : s.error = none ∧ Step j s e s' := by
  unfold Job.step? at h
  split at h
  · cases h
  · next hrunning =>
    refine ⟨Option.not_isSome_iff_eq_none.mp hrunning, ?_⟩
    cases e with
    | start i =>
      simp only at h
      split at h
      · next htask =>
        split at h
        · next hfree =>
          cases h
          exact .start htask hfree
        · cases h
      · cases h
    | call i =>
      simp only at h
      split at h
      · next task input htask hinput =>
        obtain ⟨task', hcall, rfl⟩ := Option.map_eq_some_iff.mp h
        exact .call htask hinput hcall
      · cases h
    | handIn i =>
      simp only at h
      split at h
      · next t htask =>
        cases h
        exact .keep htask
      · next err htask =>
        cases h
        exact .stop htask
      · cases h

theorem step?_of_step {e : Event} (hrunning : s.error = none) (h : Step j s e s') :
    j.step? s e = some s' := by
  have hsome : ¬ s.error.isSome = true := by
    rw [hrunning]
    exact Bool.false_ne_true
  unfold Job.step?
  rw [if_neg hsome]
  cases h with
  | start htask hfree => simp only [htask, if_pos hfree]
  | call htask hinput hcall => simp only [htask, hinput, hcall, Option.map_some]
  | keep htask => simp only [htask]
  | stop htask => simp only [htask]

/-- What holds at the beginning and is kept by every event holds after every schedule. -/
theorem play?_induction {P : List Event → State → Prop} (begin : P [] j.begin)
    (step : ∀ schedule s e s', P schedule s → s.error = none → Step j s e s' →
      P (schedule ++ [e]) s')
    {schedule : List Event} (h : j.play? schedule = some s) : P schedule s := by
  induction schedule using List.reverseRecOn generalizing s with
  | nil =>
    cases h
    exact begin
  | append_singleton schedule e ih =>
    rw [Job.play?, List.foldlM_append, Option.bind_eq_bind, Option.bind_eq_some_iff] at h
    obtain ⟨s₀, hplay, hlast⟩ := h
    rw [List.foldlM_cons, Option.bind_eq_bind, Option.bind_eq_some_iff] at hlast
    obtain ⟨s₁, hstep?, hnil⟩ := hlast
    cases hnil
    obtain ⟨hrunning, hstep⟩ := step_of_step? hstep?
    exact step schedule s₀ e _ (ih hplay) hrunning hstep

/-! ## Tasks -/

/-- What the input of a task leads to when it is run alone. -/
def Job.trialAt (j : Job) (index : Nat) (input : Input) : Except RunError Trial :=
  j.executor.trial j.implementations j.function index input

/-- What a task has done so far leads to what its input leads to when it is run alone. -/
def Task.OnCourse (j : Job) (index : Nat) (input : Input) : Task → Prop
  | .waiting | .started => True
  | .calling reference called rest =>
    rest ≠ [] ∧
      j.executor.execute j.implementations.reference j.function input = .ok reference ∧
      j.executor.executeAll j.function input j.implementations.candidates =
        (j.executor.executeAll j.function input rest).map (called ++ ·)
  | .finished result => j.trialAt index input = result
  | .handedIn => ∃ t, j.trialAt index input = .ok t

section Task

variable {index : Nat} {input : Input} {task task' : Task}

/-- What a call makes of a task: the next implementation gives an outcome, or the task is
finished by an error. -/
inductive Called (j : Job) (index : Nat) (input : Input) : Task → Task → Prop
  | reference {outcome : Outcome} :
      j.executor.execute j.implementations.reference j.function input = .ok outcome →
      Called j index input .started
        (Job.proceed index input outcome [] j.implementations.candidates)
  | noReference {err : RunError} :
      j.executor.execute j.implementations.reference j.function input = .error err →
      Called j index input .started (.finished (.error err))
  | candidate {reference outcome : Outcome} {called : List CandidateOutcome}
      {i : Implementation} {rest : List Implementation} :
      j.executor.execute i j.function input = .ok outcome →
      Called j index input (.calling reference called (i :: rest))
        (Job.proceed index input reference (called ++ [⟨i.name, outcome⟩]) rest)
  | noCandidate {reference : Outcome} {called : List CandidateOutcome} {i : Implementation}
      {rest : List Implementation} {err : RunError} :
      j.executor.execute i j.function input = .error err →
      Called j index input (.calling reference called (i :: rest)) (.finished (.error err))

theorem called_of_call? (h : j.call? index input task = some task') :
    Called j index input task task' := by
  unfold Job.call? at h
  split at h
  · split at h
    · next hreference =>
      cases h
      exact .reference hreference
    · next herr =>
      cases h
      exact .noReference herr
  · split at h
    · next houtcome =>
      cases h
      exact .candidate houtcome
    · next herr =>
      cases h
      exact .noCandidate herr
  · cases h

theorem onCourse_proceed {reference : Outcome} {called : List CandidateOutcome}
    {rest : List Implementation}
    (hreference : j.executor.execute j.implementations.reference j.function input =
      .ok reference)
    (hcalled : j.executor.executeAll j.function input j.implementations.candidates =
      (j.executor.executeAll j.function input rest).map (called ++ ·)) :
    (Job.proceed index input reference called rest).OnCourse j index input := by
  cases rest with
  | nil =>
    have hall : j.executor.executeAll j.function input j.implementations.candidates =
        .ok called := by
      rw [hcalled, Executor.executeAll, Except.map, List.append_nil]
    simp only [Job.proceed, Task.OnCourse, Job.trialAt, Executor.trial, hreference, hall]
    rfl
  | cons i rest => exact ⟨List.cons_ne_nil i rest, hreference, hcalled⟩

theorem trialAt_eq_error_of_reference {err : RunError}
    (h : j.executor.execute j.implementations.reference j.function input = .error err) :
    j.trialAt index input = .error err := by
  rw [Job.trialAt, Executor.trial, h]
  rfl

theorem trialAt_eq_error_of_candidates {reference : Outcome} {err : RunError}
    (hreference : j.executor.execute j.implementations.reference j.function input =
      .ok reference)
    (h : j.executor.executeAll j.function input j.implementations.candidates = .error err) :
    j.trialAt index input = .error err := by
  rw [Job.trialAt, Executor.trial, hreference, h]
  rfl

/-- A call keeps a task on course. -/
theorem onCourse_call (h : task.OnCourse j index input)
    (hcall : j.call? index input task = some task') : task'.OnCourse j index input := by
  cases called_of_call? hcall with
  | reference hreference =>
    apply onCourse_proceed hreference
    cases j.executor.executeAll j.function input j.implementations.candidates with
    | error err => rfl
    | ok cs => rfl
  | noReference herr => exact trialAt_eq_error_of_reference herr
  | @candidate _ _ called _ rest houtcome =>
    obtain ⟨-, hreference, hcalled⟩ := h
    apply onCourse_proceed hreference
    rw [hcalled, Executor.executeAll, houtcome]
    cases j.executor.executeAll j.function input rest with
    | error err => rfl
    | ok cs => exact congrArg Except.ok (List.append_cons called _ cs)
  | noCandidate herr =>
    obtain ⟨-, hreference, hcalled⟩ := h
    apply trialAt_eq_error_of_candidates hreference
    rw [hcalled, Executor.executeAll, herr]
    rfl

theorem proceed_ne_handedIn {reference : Outcome} {called : List CandidateOutcome}
    {rest : List Implementation} : Job.proceed index input reference called rest ≠ .handedIn := by
  cases rest <;> exact Task.noConfusion

theorem call?_ne_handedIn (h : j.call? index input task = some task') : task' ≠ .handedIn := by
  cases called_of_call? h with
  | reference | candidate => exact proceed_ne_handedIn
  | noReference | noCandidate => exact Task.noConfusion

/-- A task that has a permit has a call to make. -/
theorem exists_call (h : task.OnCourse j index input) (hpermit : task.holdsPermit = true) :
    ∃ task', j.call? index input task = some task' := by
  cases task with
  | waiting | finished _ | handedIn => cases hpermit
  | started =>
    simp only [Job.call?]
    split <;> exact ⟨_, rfl⟩
  | calling reference called rest =>
    cases rest with
    | nil => exact absurd rfl h.1
    | cons i rest =>
      simp only [Job.call?]
      split <;> exact ⟨_, rfl⟩

end Task

/-! ## What every event keeps -/

/-- What holds of a run that has begun, whatever has happened so far. -/
structure Invariant (j : Job) (s : State) : Prop where
  count : s.tasks.length = j.inputs.length
  onCourse : ∀ (i : Nat) (task : Task) (input : Input), s.tasks[i]? = some task →
    j.inputs[i]? = some input → task.OnCourse j i input
  /-- Every trial was handed in by its task, and is what the input alone leads to. -/
  placed : ∀ t ∈ s.trials, s.tasks[t.index]? = some .handedIn ∧
    ∃ input, j.inputs[t.index]? = some input ∧ j.trialAt t.index input = .ok t
  /-- No task has handed in twice. -/
  once : (s.trials.map Trial.index).Nodup
  /-- Nothing that was handed in is lost. -/
  kept : ∀ i, s.tasks[i]? = some .handedIn → ∃ t ∈ s.trials, t.index = i
  failed : ∀ err, s.error = some err →
    ∃ i input, j.inputs[i]? = some input ∧ j.trialAt i input = .error err

theorem getElem?_set_cases {α : Type} {l : List α} {i k : Nat} {a b : α}
    (h : (l.set i a)[k]? = some b) : k = i ∧ b = a ∨ k ≠ i ∧ l[k]? = some b := by
  rw [List.getElem?_set] at h
  split at h
  · next heq =>
    split at h
    · cases h
      exact .inl ⟨heq.symm, rfl⟩
    · cases h
  · next hne => exact .inr ⟨fun heq => hne heq.symm, h⟩

theorem Invariant.exists_input (h : Invariant j s) {i : Nat} {task : Task}
    (htask : s.tasks[i]? = some task) : ∃ input, j.inputs[i]? = some input := by
  have hlt : i < j.inputs.length := h.count ▸ (List.getElem?_eq_some_iff.mp htask).1
  exact ⟨_, List.getElem?_eq_getElem hlt⟩

/-- The work of a task may go on as long as it stays on course. -/
theorem Invariant.set (h : Invariant j s) {i : Nat} {task task' : Task}
    (htask : s.tasks[i]? = some task) (hbefore : task ≠ .handedIn) (hafter : task' ≠ .handedIn)
    (hcourse : ∀ input, j.inputs[i]? = some input → task'.OnCourse j i input) :
    Invariant j { s with tasks := s.tasks.set i task' } where
  count := (List.length_set ..).trans h.count
  onCourse k other input hk hinput := by
    rcases getElem?_set_cases hk with ⟨rfl, rfl⟩ | ⟨-, hk⟩
    · exact hcourse input hinput
    · exact h.onCourse k other input hk hinput
  placed t ht := by
    obtain ⟨hhanded, hinput⟩ := h.placed t ht
    have hne : i ≠ t.index := by
      rintro rfl
      rw [htask] at hhanded
      exact hbefore (Option.some.inj hhanded)
    exact ⟨(List.getElem?_set_ne hne).trans hhanded, hinput⟩
  once := h.once
  kept k hk := by
    rcases getElem?_set_cases hk with ⟨-, heq⟩ | ⟨-, hk⟩
    · exact absurd heq.symm hafter
    · exact h.kept k hk
  failed := h.failed

/-- A task that is finished may hand in its trial. -/
theorem Invariant.keep (h : Invariant j s) {i : Nat} {t : Trial}
    (htask : s.tasks[i]? = some (.finished (.ok t))) :
    Invariant j { s with tasks := s.tasks.set i .handedIn, trials := t :: s.trials } := by
  have hlt : i < s.tasks.length := (List.getElem?_eq_some_iff.mp htask).1
  obtain ⟨input, hinput⟩ := h.exists_input htask
  have htrial := h.onCourse i _ _ htask hinput
  have hindex : t.index = i := (Executor.trial_eq_ok.mp htrial).1
  refine ⟨?count, ?onCourse, ?placed, ?once, ?kept, h.failed⟩
  case count => exact (List.length_set ..).trans h.count
  case onCourse =>
    intro k other input hk hk'
    rcases getElem?_set_cases hk with ⟨rfl, rfl⟩ | ⟨-, hk⟩
    · rw [hinput] at hk'
      cases hk'
      exact ⟨t, htrial⟩
    · exact h.onCourse k other input hk hk'
  case placed =>
    refine List.forall_mem_cons.mpr ⟨?_, ?_⟩
    · rw [hindex]
      exact ⟨List.getElem?_set_self hlt, _, hinput, htrial⟩
    · intro t' ht'
      obtain ⟨hhanded, hplace⟩ := h.placed t' ht'
      have hne : i ≠ t'.index := by
        rintro rfl
        rw [htask] at hhanded
        cases hhanded
      exact ⟨(List.getElem?_set_ne hne).trans hhanded, hplace⟩
  case once =>
    refine List.nodup_cons.mpr ⟨?_, h.once⟩
    intro hmem
    obtain ⟨t', ht', heq⟩ := List.mem_map.mp hmem
    have hhanded := (h.placed t' ht').1
    rw [heq, hindex, htask] at hhanded
    cases hhanded
  case kept =>
    intro k hk
    rcases getElem?_set_cases hk with ⟨rfl, -⟩ | ⟨-, hk⟩
    · exact ⟨t, List.mem_cons_self, hindex⟩
    · obtain ⟨t', ht', heq⟩ := h.kept k hk
      exact ⟨t', List.mem_cons_of_mem t ht', heq⟩

/-- A task that is finished may end the run with its error. -/
theorem Invariant.stop (h : Invariant j s) {i : Nat} {err : RunError}
    (htask : s.tasks[i]? = some (.finished (.error err))) :
    Invariant j { s with error := some err } := by
  obtain ⟨input, hinput⟩ := h.exists_input htask
  refine { h with failed := ?_ }
  intro err' heq
  cases heq
  exact ⟨i, _, hinput, h.onCourse i _ _ htask hinput⟩

theorem Invariant.step (h : Invariant j s) {e : Event} (hstep : Step j s e s') :
    Invariant j s' := by
  cases hstep with
  | start htask _ => exact h.set htask Task.noConfusion Task.noConfusion fun _ _ => trivial
  | @call i input task task' htask hinput hcall =>
    have hbefore : task ≠ .handedIn := by
      rintro rfl
      cases hcall
    refine h.set htask hbefore (call?_ne_handedIn hcall) ?_
    intro input' hinput'
    rw [hinput] at hinput'
    cases hinput'
    exact onCourse_call (h.onCourse i task input htask hinput) hcall
  | keep htask => exact h.keep htask
  | stop htask => exact h.stop htask

theorem begin_of_checkRun (h : j.executor.checkRun j.permits j.implementations = .ok ()) :
    j.begin = { tasks := j.inputs.map fun _ => .waiting, trials := [], error := none } := by
  rw [Job.begin, h]

theorem invariant_begin (h : j.executor.checkRun j.permits j.implementations = .ok ()) :
    Invariant j j.begin := by
  have hwaiting {i : Nat} {task : Task}
      (hi : (j.inputs.map fun _ => Task.waiting)[i]? = some task) : task = .waiting := by
    rw [List.getElem?_map, Option.map_eq_some_iff] at hi
    obtain ⟨_, -, rfl⟩ := hi
    rfl
  rw [begin_of_checkRun h]
  refine ⟨List.length_map _, ?_, fun t ht => absurd ht List.not_mem_nil, List.nodup_nil, ?_, ?_⟩
  · intro i task input hi _
    rw [hwaiting hi]
    trivial
  · intro i hi
    cases hwaiting hi
  · intro err herr
    cases herr

theorem invariant_of_play? (h : j.executor.checkRun j.permits j.implementations = .ok ())
    {schedule : List Event} (hplay : j.play? schedule = some s) : Invariant j s :=
  play?_induction (P := fun _ s => Invariant j s) (invariant_begin h)
    (fun _ _ _ _ hinv _ hstep => hinv.step hstep) hplay

/-! ## Answers -/

theorem answer?_eq_ok {trials : List Trial} : s.answer? = some (.ok trials) ↔
    s.error = none ∧ (∀ task ∈ s.tasks, task = .handedIn) ∧
      trials = s.trials.mergeSort fun a b => a.index ≤ b.index := by
  have hall : s.tasks.all Task.isHandedIn = true ↔ ∀ task ∈ s.tasks, task = .handedIn := by
    rw [List.all_eq_true]
    refine forall₂_congr fun task _ => ?_
    cases task <;> simp [Task.isHandedIn]
  rw [← hall, State.answer?, @eq_comm _ trials]
  cases s.error with
  | some err => simp
  | none => by_cases hdone : s.tasks.all Task.isHandedIn = true <;> simp [hdone]

/-- Sorting trials with different indexes gives the one list of them in order of index. -/
theorem mergeSort_index_eq {trials sorted : List Trial} (hnodup : (trials.map Trial.index).Nodup)
    (hsorted : sorted.Pairwise fun a b => a.index < b.index)
    (hmem : ∀ t, t ∈ trials ↔ t ∈ sorted) :
    (trials.mergeSort fun a b => a.index ≤ b.index) = sorted := by
  have hindexes : (sorted.map Trial.index).Nodup :=
    List.pairwise_map.mpr (hsorted.imp Nat.ne_of_lt)
  have hperm : (trials.mergeSort fun a b => a.index ≤ b.index).Perm sorted :=
    (List.mergeSort_perm _ _).trans
      ((List.perm_ext_iff_of_nodup hnodup.of_map hindexes.of_map).mpr hmem)
  have hmerge : (trials.mergeSort fun a b => a.index ≤ b.index).Pairwise
      fun a b => a.index ≤ b.index := by
    refine (List.pairwise_mergeSort ?_ ?_ trials).imp fun hle => of_decide_eq_true hle
    · intro a b c hab hbc
      exact decide_eq_true (Nat.le_trans (of_decide_eq_true hab) (of_decide_eq_true hbc))
    · intro a b
      rw [Bool.or_eq_true, decide_eq_true_eq, decide_eq_true_eq]
      exact Nat.le_total _ _
  refine hperm.eq_of_pairwise ?_ hmerge (hsorted.imp Nat.le_of_lt)
  intro a b ha hb hab hba
  exact List.inj_on_of_nodup_map hindexes (hperm.subset ha) hb (Nat.le_antisymm hab hba)

/-- A trial was handed in if it is what one of the inputs leads to, once all tasks have
handed in. -/
theorem Invariant.mem_trials_iff (h : Invariant j s)
    (hall : ∀ task ∈ s.tasks, task = .handedIn) {t : Trial} :
    t ∈ s.trials ↔ ∃ i input, j.inputs[i]? = some input ∧ j.trialAt i input = .ok t := by
  constructor
  · intro ht
    obtain ⟨-, input, hinput, htrial⟩ := h.placed t ht
    exact ⟨t.index, input, hinput, htrial⟩
  · rintro ⟨i, input, hinput, htrial⟩
    have hlt : i < s.tasks.length := h.count ▸ (List.getElem?_eq_some_iff.mp hinput).1
    have htask : s.tasks[i]? = some .handedIn := by
      rw [List.getElem?_eq_getElem hlt, hall _ (List.getElem_mem hlt)]
    obtain ⟨t', ht', rfl⟩ := h.kept i htask
    obtain ⟨-, input', hinput', htrial'⟩ := h.placed t' ht'
    rw [hinput] at hinput'
    cases hinput'
    rw [htrial] at htrial'
    cases htrial'
    exact ht'

/-- The answer of a run that succeeds is that of running one input after the other. -/
theorem Invariant.trialsFrom_eq_ok (h : Invariant j s) {trials : List Trial}
    (hanswer : s.answer? = some (.ok trials)) :
    j.executor.trialsFrom j.implementations j.function 0 j.inputs = .ok trials := by
  obtain ⟨-, hall, rfl⟩ := answer?_eq_ok.mp hanswer
  have hgood : ∀ input ∈ j.inputs,
      firstError? (j.executor.results j.implementations j.function input) = none := by
    intro input hinput
    obtain ⟨i, hi⟩ := List.getElem?_of_mem hinput
    have hlt : i < s.tasks.length := h.count ▸ (List.getElem?_eq_some_iff.mp hi).1
    have htask := hall _ (List.getElem_mem hlt)
    have hcourse := h.onCourse i _ input (List.getElem?_eq_getElem hlt) hi
    rw [htask] at hcourse
    exact Executor.exists_trial_iff.mp hcourse
  obtain ⟨ts, hts⟩ := Executor.exists_trialsFrom_iff.mpr hgood
  obtain ⟨hlength, hget⟩ := Executor.trialsFrom_eq_ok.mp hts
  have hmem (t : Trial) : t ∈ s.trials ↔ t ∈ ts := by
    rw [h.mem_trials_iff hall]
    constructor
    · rintro ⟨i, input, hinput, htrial⟩
      obtain ⟨t', ht', htrial'⟩ := hget i input hinput
      rw [Nat.zero_add, ← Job.trialAt, htrial] at htrial'
      cases htrial'
      exact List.mem_of_getElem? ht'
    · intro ht
      obtain ⟨i, hi⟩ := List.getElem?_of_mem ht
      have hlt : i < j.inputs.length := hlength ▸ (List.getElem?_eq_some_iff.mp hi).1
      obtain ⟨t', ht', htrial⟩ := hget i _ (List.getElem?_eq_getElem hlt)
      rw [hi] at ht'
      cases ht'
      rw [Nat.zero_add] at htrial
      exact ⟨i, _, List.getElem?_eq_getElem hlt, htrial⟩
  rw [hts, mergeSort_index_eq h.once (Executor.pairwise_index_of_trialsFrom hts) hmem]

/-- The answer of a run that fails is the error that one of the inputs leads to. -/
theorem Invariant.exists_of_answer_error (h : Invariant j s) {err : RunError}
    (hanswer : s.answer? = some (.error err)) :
    ∃ i input, j.inputs[i]? = some input ∧ j.trialAt i input = .error err := by
  unfold State.answer? at hanswer
  split at hanswer
  · next err' herr =>
    cases hanswer
    exact h.failed err herr
  · split at hanswer <;> cases hanswer

/-! ## A run gives an answer -/

theorem answer?_eq_none : s.answer? = none ↔
    s.error = none ∧ ∃ (i : Nat) (task : Task), s.tasks[i]? = some task ∧ task ≠ .handedIn := by
  have hnot : ¬ s.tasks.all Task.isHandedIn = true ↔
      ∃ (i : Nat) (task : Task), s.tasks[i]? = some task ∧ task ≠ .handedIn := by
    rw [List.all_eq_true]
    push Not
    constructor
    · rintro ⟨task, hmem, hnot⟩
      obtain ⟨i, hi⟩ := List.getElem?_of_mem hmem
      refine ⟨i, task, hi, ?_⟩
      rintro rfl
      exact hnot rfl
    · rintro ⟨i, task, hi, hne⟩
      refine ⟨task, List.mem_of_getElem? hi, ?_⟩
      cases task <;> first | exact Bool.false_ne_true | exact absurd rfl hne
  rw [← hnot]
  unfold State.answer?
  cases s.error with
  | some err => simp
  | none => simp

/-- As long as a run has no answer it can go on: if no task can make a call or hand in, no
permit is in use, and one that waits can start. -/
theorem Invariant.exists_step (h : Invariant j s) (hpermits : 0 < j.permits)
    (hanswer : s.answer? = none) : ∃ e s', j.step? s e = some s' := by
  obtain ⟨hrunning, i, task, htask, hne⟩ := answer?_eq_none.mp hanswer
  have hgo {e : Event} {s' : State} (hstep : Step j s e s') : ∃ e s', j.step? s e = some s' :=
    ⟨e, s', step?_of_step hrunning hstep⟩
  by_cases hbusy : ∃ (k : Nat) (other : Task), s.tasks[k]? = some other ∧
      other.holdsPermit = true
  · obtain ⟨k, other, hk, hpermit⟩ := hbusy
    obtain ⟨input, hinput⟩ := h.exists_input hk
    obtain ⟨other', hcall⟩ := exists_call (h.onCourse k other _ hk hinput) hpermit
    exact hgo (.call hk hinput hcall)
  · have hfree : Job.inUse s = 0 := by
      rw [Job.inUse, List.countP_eq_zero]
      intro other hmem hpermit
      obtain ⟨k, hk⟩ := List.getElem?_of_mem hmem
      exact hbusy ⟨k, other, hk, hpermit⟩
    cases task with
    | waiting => exact hgo (.start htask (by omega))
    | started => exact absurd ⟨i, _, htask, rfl⟩ hbusy
    | calling => exact absurd ⟨i, _, htask, rfl⟩ hbusy
    | finished result =>
      cases result with
      | ok t => exact hgo (.keep htask)
      | error err => exact hgo (.stop htask)
    | handedIn => exact absurd rfl hne

/-- The number of events that a task has still before it, when there are so many
candidates. -/
def Task.work (candidates : Nat) : Task → Nat
  | .waiting => candidates + 3
  | .started => candidates + 2
  | .calling _ _ rest => rest.length + 1
  | .finished _ => 1
  | .handedIn => 0

/-- The number of events that can still happen at most. -/
def work (j : Job) (s : State) : Nat :=
  if s.error.isSome then 0
  else (s.tasks.map (Task.work j.implementations.candidates.length)).sum

theorem work_proceed {index : Nat} {input : Input} {reference : Outcome}
    {called : List CandidateOutcome} {rest : List Implementation} (candidates : Nat) :
    (Job.proceed index input reference called rest).work candidates = rest.length + 1 := by
  cases rest <;> rfl

theorem work_call {index : Nat} {input : Input} {task task' : Task}
    (h : j.call? index input task = some task') :
    task'.work j.implementations.candidates.length <
      task.work j.implementations.candidates.length := by
  cases called_of_call? h with
  | reference =>
    rw [work_proceed]
    exact Nat.lt_succ_self _
  | noReference =>
    simp only [Task.work]
    omega
  | candidate =>
    rw [work_proceed]
    exact Nat.lt_succ_self _
  | noCandidate =>
    simp only [Task.work, List.length_cons]
    omega

theorem sum_map_set_lt {α : Type} {f : α → Nat} {l : List α} {i : Nat} {a b : α}
    (ha : l[i]? = some a) (hlt : f b < f a) : ((l.set i b).map f).sum < (l.map f).sum := by
  induction l generalizing i with
  | nil => cases ha
  | cons x l ih =>
    cases i with
    | zero =>
      cases ha
      simp only [List.set_cons_zero, List.map_cons, List.sum_cons]
      omega
    | succ i =>
      have hrest := ih (i := i) (by simpa using ha)
      simp only [List.set_cons_succ, List.map_cons, List.sum_cons]
      omega

/-- Every event uses up work. -/
theorem work_step {e : Event} (hrunning : s.error = none) (hstep : Step j s e s') :
    work j s' < work j s := by
  have hwork : work j s = (s.tasks.map (Task.work j.implementations.candidates.length)).sum := by
    rw [work, hrunning]
    rfl
  have hset {i : Nat} {task task' : Task} {trials : List Trial} (htask : s.tasks[i]? = some task)
      (hlt : task'.work j.implementations.candidates.length <
        task.work j.implementations.candidates.length) :
      work j { tasks := s.tasks.set i task', trials, error := s.error } < work j s := by
    rw [hwork, hrunning]
    exact sum_map_set_lt htask hlt
  cases hstep with
  | start htask _ => exact hset htask (Nat.lt_succ_self _)
  | call htask _ hcall => exact hset htask (work_call hcall)
  | keep htask => exact hset htask Nat.one_pos
  | stop htask =>
    rw [hwork]
    exact Nat.lt_of_le_of_lt (Nat.zero_le _)
      (sum_map_set_lt (b := Task.handedIn) htask Nat.one_pos)

/-- Every schedule has at most so many events. -/
theorem length_add_work_le (h : j.executor.checkRun j.permits j.implementations = .ok ())
    {schedule : List Event} (hplay : j.play? schedule = some s) :
    schedule.length + work j s ≤
      j.inputs.length * (j.implementations.candidates.length + 3) := by
  refine play?_induction
    (P := fun schedule s => schedule.length + work j s ≤
      j.inputs.length * (j.implementations.candidates.length + 3)) ?_ ?_ hplay
  · rw [begin_of_checkRun h, List.length_nil, Nat.zero_add]
    simp [work, Task.work]
  · intro schedule s e s' hle hrunning hstep
    have hlt := work_step hrunning hstep
    rw [List.length_append, List.length_singleton]
    omega

/-! ## Runs that cannot begin -/

/-- A run that cannot begin has its answer before anything happens. -/
theorem play?_of_checkRun_error {err : RunError}
    (h : j.executor.checkRun j.permits j.implementations = .error err)
    {schedule : List Event} (hplay : j.play? schedule = some s) :
    schedule = [] ∧ s.answer? = some (.error err) := by
  have hbegin : j.begin = { tasks := [], trials := [], error := some err } := by
    rw [Job.begin, h]
  have hend := play?_induction (P := fun schedule s => schedule = [] ∧ s = j.begin) ⟨rfl, rfl⟩
    (fun schedule s e s' hs hrunning _ => by
      rw [hs.2, hbegin] at hrunning
      cases hrunning) hplay
  rw [hend.2, hbegin]
  exact ⟨hend.1, rfl⟩

/-! ## Every schedule -/

/-- The job of running all implementations on all inputs, as many at a time as the settings
allow. -/
def Job.ofSettings (e : Executor) (implementations : Implementations) (function : String)
    (inputs : List Input) (settings : RunSettings) : Job :=
  ⟨e, implementations, function, inputs, settings.permits⟩

/-- Whatever the schedule: a failing check is the answer before any call is made; else the
run comes to an end, and it answers with the trial of each input at the place of the input if
no call ends in an error, and with the first error of an input otherwise.  All of this can be
said without the schedule and the settings, but that there cannot be more than `maxPermits`
inputs at a time. -/
theorem answer?_of_play? (e : Executor) (implementations : Implementations) (function : String)
    (inputs : List Input) (settings : RunSettings) (schedule : List Event) (s : State)
    (hplay : (Job.ofSettings e implementations function inputs settings).play? schedule =
      some s) :
    (∀ err, firstError? (implementations.all.map e.check) = some err →
      schedule = [] ∧ s.answer? = some (.error err)) ∧
    (firstError? (implementations.all.map e.check) = none → settings.permits ≤ maxPermits →
      (schedule.length ≤ inputs.length * (implementations.candidates.length + 3) ∧
        (s.answer? = none → ∃ event s',
          (Job.ofSettings e implementations function inputs settings).step? s event = some s')) ∧
      ((∀ input ∈ inputs, firstError? (e.results implementations function input) = none) →
        ∀ answer, s.answer? = some answer →
          ∃ trials : List Trial, answer = .ok trials ∧
            e.trialsFrom implementations function 0 inputs = .ok trials ∧
            trials.length = inputs.length ∧
            ∀ i input, inputs[i]? = some input → ∃ t : Trial, trials[i]? = some t ∧
              t.index = i ∧ t.Records e implementations function input) ∧
      (∀ failing ∈ inputs, firstError? (e.results implementations function failing) ≠ none →
        ∀ answer, s.answer? = some answer →
          ∃ err, answer = .error err ∧ ∃ input ∈ inputs,
            firstError? (e.results implementations function input) = some err)) ∧
    (firstError? (implementations.all.map e.check) = none → maxPermits < settings.permits →
      schedule = [] ∧ s.answer? = some (.error (.tooManyPermits settings.permits))) := by
  let j := Job.ofSettings e implementations function inputs settings
  refine ⟨?refused, ?begun, ?permits⟩
  case refused =>
    intro err herr
    have hcheck : j.executor.checkRun j.permits j.implementations = .error err :=
      bind_eq_error.mpr (.inl (Executor.checkAll_eq_error.mpr herr))
    exact play?_of_checkRun_error hcheck hplay
  case begun =>
    intro hchecks hpermits
    have hcheck : j.executor.checkRun j.permits j.implementations = .ok () :=
      bind_eq_ok.mpr ⟨(), Executor.checkAll_eq_ok.mpr hchecks, if_neg (Nat.not_lt.mpr hpermits)⟩
    have hinv : Invariant j s := invariant_of_play? hcheck hplay
    refine ⟨⟨?_, hinv.exists_step (Nat.le_max_left 1 settings.maxConcurrency)⟩, ?good, ?bad⟩
    · exact Nat.le_trans (Nat.le_add_right _ _) (length_add_work_le hcheck hplay)
    case good =>
      intro hgood answer hanswer
      cases answer with
      | error err =>
        obtain ⟨i, input, hi, htrial⟩ := hinv.exists_of_answer_error hanswer
        have herr := Executor.trial_eq_error.mp htrial
        have hnone := hgood input (List.mem_of_getElem? hi)
        exact absurd (herr.symm.trans hnone) (Option.some_ne_none err)
      | ok trials =>
        have htrials := hinv.trialsFrom_eq_ok hanswer
        obtain ⟨hlength, hget⟩ := Executor.trialsFrom_eq_ok.mp htrials
        refine ⟨trials, rfl, htrials, hlength, ?_⟩
        intro i input hi
        obtain ⟨t, ht, htrial⟩ := hget i input hi
        rw [Nat.zero_add] at htrial
        exact ⟨t, ht, Executor.trial_eq_ok.mp htrial⟩
    case bad =>
      intro failing hfailing hfirst answer hanswer
      cases answer with
      | error err =>
        obtain ⟨i, input, hi, htrial⟩ := hinv.exists_of_answer_error hanswer
        exact ⟨err, rfl, input, List.mem_of_getElem? hi, Executor.trial_eq_error.mp htrial⟩
      | ok trials =>
        have htrials := hinv.trialsFrom_eq_ok hanswer
        exact absurd (Executor.exists_trialsFrom_iff.mp ⟨trials, htrials⟩ failing hfailing) hfirst
  case permits =>
    intro hchecks hpermits
    have hcheck : j.executor.checkRun j.permits j.implementations =
        .error (.tooManyPermits settings.permits) :=
      bind_eq_error.mpr (.inr ⟨(), Executor.checkAll_eq_ok.mpr hchecks, if_pos hpermits⟩)
    exact play?_of_checkRun_error hcheck hplay

/-- Gives back the name of the implementation and cannot fail. -/
def nameExecutor : Executor where
  check _ := .ok ()
  execute i _ _ := .ok (.value i.name)

/-- Two inputs of which the second is done before the first begins. -/
theorem answer?_of_play?_overtaking :
    let trials := [⟨0, [.int 1], .value "a", [⟨"b", .value "b"⟩]⟩,
      ⟨1, [.int 2], .value "a", [⟨"b", .value "b"⟩]⟩]
    (Job.ofSettings nameExecutor ⟨⟨"a", "a.py"⟩, [⟨"b", "b.py"⟩]⟩ "f" [[.int 1], [.int 2]]
      .standard).play? [.start 1, .start 0, .call 1, .call 1, .handIn 1, .call 0, .call 0,
        .handIn 0] = some ⟨[.handedIn, .handedIn], trials, none⟩ ∧
    ∃ t : Trial, trials[1]? = some t ∧ t.index = 1 ∧
      t.Records nameExecutor ⟨⟨"a", "a.py"⟩, [⟨"b", "b.py"⟩]⟩ "f" [.int 2] := by
  intro trials
  refine ⟨rfl, ?_⟩
  obtain ⟨-, hbegun, -⟩ := answer?_of_play? nameExecutor ⟨⟨"a", "a.py"⟩, [⟨"b", "b.py"⟩]⟩ "f"
    [[.int 1], [.int 2]] .standard [.start 1, .start 0, .call 1, .call 1, .handIn 1, .call 0,
      .call 0, .handIn 0] ⟨[.handedIn, .handedIn], trials, none⟩ rfl
  obtain ⟨-, hgood, -⟩ := hbegun rfl (by decide)
  have hanswer : State.answer? ⟨[.handedIn, .handedIn], trials, none⟩ = some (.ok trials) :=
    answer?_eq_ok.mpr ⟨rfl, by simp, (List.mergeSort_of_pairwise (by simp [trials])).symm⟩
  obtain ⟨_, heq, -, -, hget⟩ := hgood (by decide) (.ok trials) hanswer
  cases heq
  exact hget 1 [.int 2] rfl

end Divergence.Schedule
