/-
# `Divergence.Signature` — kinds of divergence

A signature says which candidate did what where the reference did something
else, in terms of outcome classes.  Two inputs on which a candidate differs
in the same way have the same signature, so a run has few of them however
many inputs diverge.

The signatures of a trial form a set, kept in increasing order: by candidate,
then by the reference's class, then by the candidate's.
-/
import Divergence.Ordered
import Divergence.Trial.Basic

namespace Divergence

structure Signature where
  candidate : String
  /-- The class of the reference's outcome. -/
  reference : OutcomeClass
  /-- The class of the candidate's outcome. -/
  observed : OutcomeClass
  deriving DecidableEq, Repr

namespace Signature

def cmp (a b : Signature) : Ordering :=
  ((compare a.candidate b.candidate).then (a.reference.cmp b.reference)).then
    (a.observed.cmp b.observed)

def text (s : Signature) : String :=
  if s.reference = .value && s.observed = .value then s.candidate ++ ": value mismatch"
  else s.candidate ++ ": " ++ s.observed.text ++ " where reference " ++ s.reference.text

/-- The signature of a candidate that diverges from an outcome of the reference. -/
def ofCandidate (reference : Outcome) (c : CandidateOutcome) : Signature where
  candidate := c.name
  reference := reference.cls
  observed := c.outcome.cls

end Signature

/-- The signatures that a trial exhibits, in increasing order. -/
def Trial.signatures (t : Trial) : List Signature :=
  Ordered.elements Signature.cmp (t.divergent.map (Signature.ofCandidate t.reference))

end Divergence
