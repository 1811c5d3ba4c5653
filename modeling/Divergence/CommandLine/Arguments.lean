/-
# `Divergence.CommandLine.Arguments` — the options of the command line

Every option takes a value, as the next argument or after an equals sign in
the same one; an argument that starts with a dash can be a value only in the
second form.  `--candidate` may be given several times and has to be given
once; `--config` and `--reference` have to be given; no other option may be
repeated.  Two dashes alone may end the options.  Nothing else is accepted.
-/
import Divergence.Settings
import Divergence.Text.Numeral

namespace Divergence.CommandLine

/-- The forms a report is written in. -/
inductive Format where
  | text | json
  deriving DecidableEq, Repr

inductive Flag where
  | config | reference | candidate | seed | timeoutMs | jobs | python | format
  deriving DecidableEq, Repr

/-- The name of an option, without its dashes. -/
def Flag.label : Flag → String
  | .config => "config"
  | .reference => "reference"
  | .candidate => "candidate"
  | .seed => "seed"
  | .timeoutMs => "timeout-ms"
  | .jobs => "jobs"
  | .python => "python"
  | .format => "format"

def Flag.all : List Flag :=
  [.config, .reference, .candidate, .seed, .timeoutMs, .jobs, .python, .format]

def Flag.ofLabel? (name : List Char) : Option Flag :=
  Flag.all.find? fun f => f.label.toList = name

structure Arguments where
  config : String
  reference : String
  candidates : List String
  settings : RunSettings
  sampling : SamplingSettings
  format : Format
  deriving DecidableEq, Repr

/-- Whether an argument can be a value by itself. -/
def isPlain (argument : String) : Bool :=
  match argument.toList with
  | '-' :: _ :: _ => false
  | _ => true

/-- The options given, each with its value, in order. -/
def pairs? : List String → Option (List (Flag × String))
  | [] => some []
  | argument :: rest =>
    match argument.toList with
    | ['-', '-'] => if rest.isEmpty then some [] else none
    | '-' :: '-' :: body => do
      let flag ← Flag.ofLabel? (body.takeWhile (· ≠ '='))
      match body.dropWhile (· ≠ '=') with
      | _ :: value => (pairs? rest).map ((flag, String.ofList value) :: ·)
      | [] =>
        match rest with
        | value :: rest =>
          if isPlain value then (pairs? rest).map ((flag, value) :: ·) else none
        | [] => none
    | _ => none

/-- The values given for an option. -/
def valuesOf (pairs : List (Flag × String)) (flag : Flag) : List String :=
  (pairs.filter fun p => p.1 = flag).map Prod.snd

/-- The value of an option that may be given once, `some none` if it is not given. -/
def single? {α : Type} (read : String → Option α) (pairs : List (Flag × String))
    (flag : Flag) : Option (Option α) :=
  match valuesOf pairs flag with
  | [] => some none
  | [value] => (read value).map some
  | _ => none

/-- A path, which may not be empty. -/
def path? (value : String) : Option String :=
  if value.isEmpty then none else some value

/-- A natural number of 64 bits. -/
def natural? (value : String) : Option Nat :=
  Text.word64? value.toList

def format? (value : String) : Option Format :=
  if value = "text" then some .text
  else if value = "json" then some .json
  else none

/-- The options of a command line, if it is one. -/
def Arguments.ofList? (arguments : List String) : Option Arguments := do
  let pairs ← pairs? arguments
  let config ← single? path? pairs .config
  let reference ← single? path? pairs .reference
  let candidates ← (valuesOf pairs .candidate).mapM path?
  let seed ← single? natural? pairs .seed
  let timeoutMs ← single? natural? pairs .timeoutMs
  let jobs ← single? natural? pairs .jobs
  let python ← single? path? pairs .python
  let format ← single? format? pairs .format
  let standard := RunSettings.standard
  if candidates.isEmpty then none
  else
    return {
      config := ← config
      reference := ← reference
      candidates
      settings := {
        interpreter := python.getD standard.interpreter
        timeoutMs := timeoutMs.getD standard.timeoutMs
        maxConcurrency := jobs.getD standard.maxConcurrency }
      sampling := { seed }
      format := format.getD .text }

end Divergence.CommandLine
