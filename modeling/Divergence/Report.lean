/-
# `Divergence.Report` — the concise set, for people and for tools

A report counts the inputs of a campaign and lists the concise set: for each
selected input the call, the reference's outcome, the outcomes of the
candidates that diverge, and the signatures that the input was selected for.
It is written as text or as an indented JSON document.
-/
import Divergence.Campaign
import Divergence.Json.Writer
import Divergence.Outcome.Document
import Divergence.Value.Literal

namespace Divergence

structure ReportEntry where
  /-- The position of the input in the base set. -/
  index : Nat
  /-- The arguments, as a tuple. -/
  arguments : String
  reference : Outcome
  divergent : List CandidateOutcome
  covers : List Signature
  deriving DecidableEq

structure Report where
  function : String
  seed : Nat
  totalInputs : Nat
  divergentInputs : Nat
  concise : List ReportEntry
  deriving DecidableEq

namespace ReportEntry

def ofSelected (s : Selected) : ReportEntry where
  index := s.trial.index
  arguments := s.trial.input.arguments
  reference := s.trial.reference
  divergent := s.trial.divergent
  covers := s.covers

/-- The lines of an entry, after an empty one. -/
def lines (function : String) (e : ReportEntry) : List String :=
  ["", s!"#{e.index} " ++ function ++ e.arguments, "  reference: " ++ e.reference.text] ++
    (e.divergent.map fun c => "  " ++ c.name ++ ": " ++ c.outcome.text) ++
    (e.covers.map fun s => "  covers " ++ s.text)

def signatureJson (s : Signature) : Json :=
  .record [("candidate", .ofString s.candidate), ("reference", s.reference.toJson),
    ("observed", s.observed.toJson)]

def toJson (e : ReportEntry) : Json :=
  .record [("index", .ofNat e.index), ("arguments", .ofString e.arguments),
    ("reference", e.reference.toJson),
    ("divergent", .array (e.divergent.map CandidateOutcome.toJson)),
    ("covers", .array (e.covers.map signatureJson))]

end ReportEntry

namespace Report

def ofCampaign (c : Campaign) : Report where
  function := c.function
  seed := c.seed
  totalInputs := c.trials.length
  divergentInputs := c.divergentCount
  concise := c.concise.map ReportEntry.ofSelected

def lines (r : Report) : List String :=
  (r.function ++ s!": {r.totalInputs} inputs, {r.divergentInputs} divergent, seed {r.seed}") ::
    if r.concise.isEmpty then ["no divergence found"]
    else s!"concise set ({r.concise.length} inputs):" :: r.concise.flatMap (·.lines r.function)

/-- The text of a report, each line ended by a line feed. -/
def text (r : Report) : String :=
  String.join (r.lines.map (· ++ "\n"))

def toJson (r : Report) : Json :=
  .record [("function", .ofString r.function), ("seed", .ofNat r.seed),
    ("total_inputs", .ofNat r.totalInputs), ("divergent_inputs", .ofNat r.divergentInputs),
    ("concise", .array (r.concise.map ReportEntry.toJson))]

def jsonText (r : Report) : String :=
  String.ofList (r.toJson.indented 0)

end Report

end Divergence
