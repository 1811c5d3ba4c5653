/-
# `Divergence.Campaign` — a differential run from specification to trials

A campaign reads a specification, generates the base set, and runs every
implementation on it.  The specification is checked in full before anything
runs.  A seed given with the run takes the place of the specification's.
-/
import Divergence.BaseSet
import Divergence.ConciseSet
import Divergence.Settings
import Divergence.Trial.Run

namespace Divergence

/-- Why a campaign has no result. -/
inductive CampaignError where
  | invalidSpec (e : SpecError)
  | executionFailed (e : RunError)
  deriving DecidableEq, Repr

namespace CampaignError

def message : CampaignError → String
  | .invalidSpec e => "invalid spec: " ++ e.message
  | .executionFailed e => "execution failed: " ++ e.message

/-- The wording of an error and of each of its causes, outermost first. -/
def messages : CampaignError → List String
  | .invalidSpec e => (CampaignError.invalidSpec e).message :: e.messages
  | .executionFailed e => (CampaignError.executionFailed e).message :: e.messages

end CampaignError

structure Campaign where
  function : String
  /-- The seed that the random inputs were drawn with. -/
  seed : Nat
  /-- One trial for each input of the base set, in order. -/
  trials : List Trial

namespace Campaign

def divergentCount (c : Campaign) : Nat :=
  c.trials.countP Trial.isDivergent

/-- The trials that show every divergence. -/
def concise (c : Campaign) : List Selected :=
  ConciseSet.ofTrials c.trials

/-- The seed of a run: the one it is given, or the specification's, or a fresh one. -/
def seedOf (settings : SamplingSettings) (spec : Spec) (freshSeed : Nat) : Nat :=
  (settings.seed.or spec.seed).getD freshSeed

def ofSpec (spec : Spec) (seed permits : Nat) (implementations : Implementations)
    (e : Executor) : Except RunError Campaign := do
  let trials ← e.run permits implementations spec.function (BaseSet.ofSpec spec seed)
  return { function := spec.function, seed, trials }

/-- The campaign of a specification's text, which could not be read if it is an error. -/
def run (text : Except SpecError String) (settings : SamplingSettings)
    (freshSeed permits : Nat) (implementations : Implementations) (e : Executor) :
    Except CampaignError Campaign :=
  match text.bind fun text => Spec.read text.toList with
  | .error cause => .error (.invalidSpec cause)
  | .ok spec =>
    match ofSpec spec (seedOf settings spec freshSeed) permits implementations e with
    | .error cause => .error (.executionFailed cause)
    | .ok campaign => .ok campaign

end Campaign

end Divergence
