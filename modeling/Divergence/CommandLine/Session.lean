/-
# `Divergence.CommandLine.Session` — one run of the command line

A candidate that is a directory stands for the files with extension `py` in
it, by name.  The report goes to the standard output.  A run that fails
writes one line with the error and each of its causes, and exits with 2 if
the command line or the specification is at fault and with 1 otherwise.  Only
a run with more permits than there can be stops without a word, and exits
with 101.
-/
import Divergence.CommandLine.Arguments
import Divergence.Worker.Executor
import Divergence.Report

namespace Divergence.CommandLine

/-- How a run of the command line ends. -/
inductive Ending where
  /-- The report, as it is written. -/
  | report (output : String)
  /-- The arguments are no command line. -/
  | usage
  | noCandidates
  | failed (e : CampaignError)

namespace Ending

def code : Ending → Nat
  | .report _ => 0
  | .usage => 2
  | .noCandidates => 1
  | .failed (.invalidSpec _) => 2
  | .failed (.executionFailed (.tooManyPermits _)) => 101
  | .failed (.executionFailed _) => 1

/-- What is written to the standard output. -/
def output : Ending → String
  | .report output => output
  | _ => ""

/-- The error line, if there is one. -/
def errorLine? : Ending → Option String
  | .report _ | .usage => none
  | .failed (.executionFailed (.tooManyPermits _)) => none
  | .noCandidates => some "error: no candidate implementations found"
  | .failed e => some ("error: " ++ ": ".intercalate e.messages)

end Ending

/-- The files with extension `py` in a directory, by name. -/
def implementationFiles (host : Host) (directory : String) : List String :=
  let paths := (host.entries directory).map fun name =>
    String.ofList (Text.child directory.toList name.toList)
  let files := paths.filter fun path =>
    host.isFile path && Text.extension? path.toList = some ['p', 'y']
  files.mergeSort fun a b => (compare a b).isLE

/-- The implementations that a candidate stands for. -/
def expandCandidate (host : Host) (path : String) : List Implementation :=
  if host.isDirectory path then (implementationFiles host path).map Implementation.ofPath
  else [Implementation.ofPath path]

def render (format : Format) (r : Report) : String :=
  match format with
  | .text => r.text
  | .json => r.jsonText ++ "\n"

def readSpecFile (host : Host) (path : String) : Except SpecError String :=
  match host.readText path with
  | .ok text => .ok text
  | .error reason => .error (.unreadable path reason)

/-- A run with given options. -/
def runWith (host : Host) (a : Arguments) : Ending :=
  let candidates := a.candidates.flatMap (expandCandidate host)
  if candidates.isEmpty then .noCandidates
  else
    let implementations := Implementations.ofParts (Implementation.ofPath a.reference) candidates
    match Campaign.run (readSpecFile host a.config) a.sampling host.freshSeed
        a.settings.permits implementations (Worker.executor host a.settings) with
    | .ok campaign => .report (render a.format (Report.ofCampaign campaign))
    | .error e => .failed e

def run (host : Host) (arguments : List String) : Ending :=
  match Arguments.ofList? arguments with
  | some a => runWith host a
  | none => .usage

end Divergence.CommandLine
