/-
# `Divergence.Trial.Schedule` — several inputs at a time

A run may work on several inputs side by side.  Each input is a task of its
own: it waits until one of a limited number of permits is free, then the
reference is called and the candidates in order, and what came of it is
handed in at some later time.  A trial that is handed in is kept; an error
that is handed in ends the run and is its answer.  Once every task has handed
in its trial, the answer is the trials by index.

A schedule is the list of what happens, one event after the other.  Which
event comes next is left open, except that it has to be possible: `step?`
gives no state for an event that is not.
-/
import Divergence.Trial.Run

namespace Divergence.Schedule

/-- A run to be scheduled. -/
structure Job where
  executor : Executor
  implementations : Implementations
  function : String
  inputs : List Input
  /-- The number of inputs that may be in progress at a time. -/
  permits : Nat

/-- How far the work on an input has come. -/
inductive Task where
  /-- It has no permit yet. -/
  | waiting
  /-- It has a permit, and no call was made. -/
  | started
  /-- The reference and some candidates were called; the others are still to be. -/
  | calling (reference : Outcome) (called : List CandidateOutcome) (rest : List Implementation)
  /-- All calls were made, or one of them ended in an error. -/
  | finished (result : Except RunError Trial)
  | handedIn

/-- Whether a task holds a permit. -/
def Task.holdsPermit : Task → Bool
  | .started | .calling _ _ _ => true
  | _ => false

/-- Whether a task has handed in its trial. -/
def Task.isHandedIn : Task → Bool
  | .handedIn => true
  | _ => false

/-- What can happen to the task of an input. -/
inductive Event where
  /-- It gets a permit. -/
  | start (index : Nat)
  /-- Its next call is made. -/
  | call (index : Nat)
  /-- Its trial or error is handed in. -/
  | handIn (index : Nat)
  deriving DecidableEq, Repr

structure State where
  /-- One task for each input, in order. -/
  tasks : List Task
  /-- The trials handed in, the latest first. -/
  trials : List Trial
  /-- The error that ended the run. -/
  error : Option RunError

namespace Job

/-- A job before any event.  If the run cannot begin it has ended. -/
def begin (j : Job) : State :=
  match j.executor.checkRun j.permits j.implementations with
  | .ok () => { tasks := j.inputs.map fun _ => .waiting, trials := [], error := none }
  | .error e => { tasks := [], trials := [], error := some e }

/-- A task after a call that went well, with the candidates still to be called. -/
def proceed (index : Nat) (input : Input) (reference : Outcome) (called : List CandidateOutcome) :
    List Implementation → Task
  | [] => .finished (.ok { index, input, reference, candidates := called })
  | i :: rest => .calling reference called (i :: rest)

/-- A task after its next call, if there is one to make. -/
def call? (j : Job) (index : Nat) (input : Input) : Task → Option Task
  | .started =>
    match j.executor.execute j.implementations.reference j.function input with
    | .ok reference => some (proceed index input reference [] j.implementations.candidates)
    | .error e => some (.finished (.error e))
  | .calling reference called (i :: rest) =>
    match j.executor.execute i j.function input with
    | .ok outcome =>
      some (proceed index input reference (called ++ [{ name := i.name, outcome }]) rest)
    | .error e => some (.finished (.error e))
  | _ => none

def inUse (s : State) : Nat :=
  s.tasks.countP Task.holdsPermit

/-- The state after an event, if the event is possible. -/
def step? (j : Job) (s : State) (e : Event) : Option State :=
  if s.error.isSome then none
  else
    match e with
    | .start index =>
      match s.tasks[index]? with
      | some .waiting =>
        if inUse s < j.permits then some { s with tasks := s.tasks.set index .started } else none
      | _ => none
    | .call index =>
      match s.tasks[index]?, j.inputs[index]? with
      | some task, some input =>
        (j.call? index input task).map fun task => { s with tasks := s.tasks.set index task }
      | _, _ => none
    | .handIn index =>
      match s.tasks[index]? with
      | some (.finished (.ok t)) =>
        some { s with tasks := s.tasks.set index .handedIn, trials := t :: s.trials }
      | some (.finished (.error e)) => some { s with error := some e }
      | _ => none

/-- The state after a schedule, if each of its events is possible when its turn comes. -/
def play? (j : Job) (schedule : List Event) : Option State :=
  schedule.foldlM j.step? j.begin

end Job

/-- The answer of a run, once it has one. -/
def State.answer? (s : State) : Option (Except RunError (List Trial)) :=
  match s.error with
  | some e => some (.error e)
  | none =>
    if s.tasks.all Task.isHandedIn then
      some (.ok (s.trials.mergeSort fun a b => a.index ≤ b.index))
    else none

end Divergence.Schedule
