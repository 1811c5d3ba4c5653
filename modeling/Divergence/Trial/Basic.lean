/-
# `Divergence.Trial.Basic` — inputs with the outcomes of all implementations

A trial is one input of a run together with what the reference and every
candidate did with it.  A candidate diverges on the input when its outcome
does not agree with the reference's.
-/
import Divergence.Outcome.Basic
import Divergence.Value.Basic

namespace Divergence

/-- An input with the outcome of every implementation. -/
structure Trial where
  /-- The position of the input in the base set. -/
  index : Nat
  input : Input
  reference : Outcome
  /-- One outcome for each candidate, in the order of the candidates. -/
  candidates : List CandidateOutcome

namespace Trial

def divergent (t : Trial) : List CandidateOutcome :=
  t.candidates.filter fun c => !c.outcome.agrees t.reference

def isDivergent (t : Trial) : Bool :=
  !t.divergent.isEmpty

end Trial

end Divergence
