/-
# `Divergence.Settings` — what a run is told besides the specification
-/

namespace Divergence

/-- How implementations are run. -/
structure RunSettings where
  /-- The program that runs them. -/
  interpreter : String
  /-- The time a call may take, in milliseconds. -/
  timeoutMs : Nat
  /-- The number of inputs that may be run at a time. -/
  maxConcurrency : Nat
  deriving DecidableEq, Repr

def RunSettings.standard : RunSettings where
  interpreter := "python3"
  timeoutMs := 5000
  maxConcurrency := 4

/-- The number of inputs that are run at a time: at least one. -/
def RunSettings.permits (s : RunSettings) : Nat :=
  max 1 s.maxConcurrency

/-- The greatest number of inputs that can be run at a time. -/
def maxPermits : Nat := 0x1FFFFFFFFFFFFFFF

/-- The time a call may take, in microseconds. -/
def RunSettings.timeoutMicros (s : RunSettings) : Nat :=
  s.timeoutMs * 1000

/-- How inputs are sampled. -/
structure SamplingSettings where
  /-- The seed that takes the place of the specification's. -/
  seed : Option Nat
  deriving DecidableEq, Repr

end Divergence
