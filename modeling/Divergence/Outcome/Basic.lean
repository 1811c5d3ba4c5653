/-
# `Divergence.Outcome.Basic` — what an implementation did with an input

An outcome is the printed form of a returned value, or a failure.  Failures
are results like any other: a candidate that raises where the reference
raises the same exception agrees with it.

Two outcomes agree when they are of one class and, for values, print alike.
The class of an outcome leaves out whatever may differ between two runs of
the same behaviour: messages, durations, exit codes and error output.
-/

namespace Divergence

/-- Why a call gave no value. -/
inductive Failure where
  /-- The function raised an exception. -/
  | raised (exception message : String)
  /-- The call ran past its time and was killed. -/
  | timeout (afterMs : Nat)
  /-- The process died without a report; no exit code if a signal ended it. -/
  | crashed (code : Option Int) (stderr : String)
  deriving DecidableEq, Repr

inductive Outcome where
  /-- It returned a value with this printed form. -/
  | value (printed : String)
  | failure (f : Failure)
  deriving DecidableEq, Repr

/-- The coarse shape of an outcome. -/
inductive OutcomeClass where
  | value
  | raised (exception : String)
  | timeout
  | crashed
  deriving DecidableEq, Repr

namespace Outcome

def cls : Outcome → OutcomeClass
  | .value _ => .value
  | .failure (.raised exception _) => .raised exception
  | .failure (.timeout _) => .timeout
  | .failure (.crashed _ _) => .crashed

/-- Whether two outcomes agree. -/
def agrees (a b : Outcome) : Bool :=
  a.cls = b.cls &&
    match a, b with
    | .value p, .value q => p = q
    | _, _ => true

def text : Outcome → String
  | .value printed => "returned " ++ printed
  | .failure (.raised exception message) =>
    if message.isEmpty then "raised " ++ exception
    else "raised " ++ exception ++ ": " ++ message
  | .failure (.timeout afterMs) => s!"timed out after {afterMs} ms"
  | .failure (.crashed (some code) _) => s!"crashed with exit code {code}"
  | .failure (.crashed none _) => "crashed (killed by signal)"

end Outcome

namespace OutcomeClass

def text : OutcomeClass → String
  | .value => "returned a value"
  | .raised exception => "raised " ++ exception
  | .timeout => "timed out"
  | .crashed => "crashed"

def rank : OutcomeClass → Nat
  | .value => 0
  | .raised _ => 1
  | .timeout => 2
  | .crashed => 3

/-- The order of classes: values, exceptions by name, timeouts, crashes. -/
def cmp : OutcomeClass → OutcomeClass → Ordering
  | .raised a, .raised b => compare a b
  | a, b => compare a.rank b.rank

end OutcomeClass

structure CandidateOutcome where
  name : String
  outcome : Outcome
  deriving DecidableEq, Repr

end Divergence
