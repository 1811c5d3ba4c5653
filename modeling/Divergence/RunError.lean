/-
# `Divergence.RunError` — what ends a run

A candidate that fails is a result, but a run cannot go on when an
implementation is not there, cannot be started or loaded, or answers in a way
nobody understands.  Nor can it begin with more permits than there can be.  The
first such error is the answer of the whole run.
-/

namespace Divergence

/-- Why implementations cannot be compared at all. -/
inductive RunError where
  | missingImplementation (name path : String)
  | cannotStart (program reason : String)
  | loadFailed (name function message : String)
  | unreadableReport (name details : String)
  | taskFailed (message : String)
  /-- More inputs were to be in progress at a time than there can be permits for. -/
  | tooManyPermits (permits : Nat)
  deriving DecidableEq, Repr

namespace RunError

def message : RunError → String
  | .missingImplementation name path => s!"implementation '{name}' not found at '{path}'"
  | .cannotStart program reason => s!"failed to run '{program}': {reason}"
  | .loadFailed name function message =>
    s!"cannot load '{function}' from implementation '{name}': {message}"
  | .unreadableReport name details =>
    s!"unreadable report from implementation '{name}': {details}"
  | .taskFailed message => s!"execution task failed: {message}"
  | .tooManyPermits permits => s!"cannot run {permits} inputs at a time"

/-- The wording of an error and of its cause, if that has a wording of its own. -/
def messages : RunError → List String
  | .cannotStart program reason => [(RunError.cannotStart program reason).message, reason]
  | e => [e.message]

end RunError

end Divergence
