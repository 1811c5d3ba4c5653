/-
# `Divergence.Trial.Run` — running all implementations on all inputs

All implementations are checked before any is called, and then the number of
inputs that may be in progress at a time, which is limited even if there are
no inputs.  Every input gives one trial: the reference is called first and the
candidates in order, and the first call that ends in an error ends the run.
Trials come out in the order of the inputs, numbered from zero.
-/
import Divergence.Implementation.Basic
import Divergence.RunError
import Divergence.Settings
import Divergence.Trial.Basic

namespace Divergence

/-- A way to run implementations. -/
structure Executor where
  /-- Whether an implementation can be called at all. -/
  check : Implementation → Except RunError Unit
  /-- What an implementation's function does with an input. -/
  execute : Implementation → (function : String) → Input → Except RunError Outcome

namespace Executor

/-- The first error among the checks of several implementations. -/
def checkAll (e : Executor) : List Implementation → Except RunError Unit
  | [] => .ok ()
  | i :: rest => do
    e.check i
    e.checkAll rest

/-- Refuses more permits than there can be. -/
def checkPermits (permits : Nat) : Except RunError Unit :=
  if maxPermits < permits then .error (.tooManyPermits permits) else .ok ()

/-- Whether a run can begin: every implementation can be called, and there can be so many
permits. -/
def checkRun (e : Executor) (permits : Nat) (implementations : Implementations) :
    Except RunError Unit := do
  e.checkAll implementations.all
  checkPermits permits

/-- The outcomes of several candidates on one input. -/
def executeAll (e : Executor) (function : String) (input : Input) :
    List Implementation → Except RunError (List CandidateOutcome)
  | [] => .ok []
  | i :: rest => do
    let outcome ← e.execute i function input
    let others ← e.executeAll function input rest
    return { name := i.name, outcome } :: others

def trial (e : Executor) (implementations : Implementations) (function : String)
    (index : Nat) (input : Input) : Except RunError Trial := do
  let reference ← e.execute implementations.reference function input
  let candidates ← e.executeAll function input implementations.candidates
  return { index, input, reference, candidates }

/-- The trials of several inputs, numbered from `index` on. -/
def trialsFrom (e : Executor) (implementations : Implementations) (function : String) :
    (index : Nat) → List Input → Except RunError (List Trial)
  | _, [] => .ok []
  | index, input :: rest => do
    let t ← e.trial implementations function index input
    let others ← e.trialsFrom implementations function (index + 1) rest
    return t :: others

/-- The trials of all inputs, if the run can begin. -/
def run (e : Executor) (permits : Nat) (implementations : Implementations)
    (function : String) (inputs : List Input) : Except RunError (List Trial) := do
  e.checkRun permits implementations
  e.trialsFrom implementations function 0 inputs

/-- The calls that a run makes, in order, if none of them ends it. -/
def calls (implementations : Implementations) (inputs : List Input) :
    List (Implementation × Input) :=
  inputs.flatMap fun input => implementations.all.map fun i => (i, input)

end Executor

end Divergence
