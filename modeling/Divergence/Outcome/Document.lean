/-
# `Divergence.Outcome.Document` — outcomes as JSON documents

An outcome is a variant that carries the printed value or the failure.  A
failure is a flat record whose `kind` member says which it is; written as an
array, the kind comes first.  A class is a variant of which only one
alternative carries something, the name of the exception.

Each type has a writer and a reader, and what the writer gives the reader
takes back.
-/
import Divergence.Json.Record
import Divergence.Outcome.Basic

namespace Divergence

/-! ## Failures -/

namespace Failure

def toJson : Failure → Json
  | .raised exception message =>
    .record [("kind", .ofString "raised"), ("exception", .ofString exception),
      ("message", .ofString message)]
  | .timeout afterMs =>
    .record [("kind", .ofString "timeout"), ("after_ms", .ofNat afterMs)]
  | .crashed code stderr =>
    .record [("kind", .ofString "crashed"),
      ("code", (code.map fun c => Json.number (.integer c)).getD .null),
      ("stderr", .ofString stderr)]

/-- An exit code, absent or `null` if there is none. -/
def code? : Option Json → Option (Option Int)
  | none | some .null => some none
  | some value => value.int32?.map some

def ofKind? (kind : String) (content : Json) : Option Failure :=
  if kind = "raised" then
    match content.record? ["exception", "message"] with
    | some [some exception, some message] => do
      return .raised (← exception.text?) (← message.text?)
    | _ => none
  else if kind = "timeout" then
    match content.record? ["after_ms"] with
    | some [some afterMs] => do return .timeout (← afterMs.word?)
    | _ => none
  else if kind = "crashed" then
    match content.record? ["code", "stderr"] with
    | some [code, some stderr] => do return .crashed (← code? code) (← stderr.text?)
    | _ => none
  else none

/-- The kind that a failure's document names, and the document without it. -/
def kind? : Json → Option (String × Json)
  | .object members => do
    let kind ← (← Json.onlyNamed? members "kind")
    return (← kind.text?, .object (members.filter fun m => m.1 ≠ some "kind"))
  | .array (kind :: items) => do return (← kind.text?, .array items)
  | _ => none

/-- The failure of a document.  All of the document has to be usable, members that are
not looked at included, and nested no deeper than `room`. -/
def ofJson? (room : Nat) (j : Json) : Option Failure :=
  if j.sound room then (kind? j).bind fun (kind, content) => ofKind? kind content
  else none

end Failure

/-! ## Outcomes -/

namespace Outcome

def toJson : Outcome → Json
  | .value printed => .record [("value", .ofString printed)]
  | .failure f => .record [("failure", f.toJson)]

def ofJson? (room : Nat) (j : Json) : Option Outcome :=
  match j.variant? with
  | some ("value", some printed) => printed.text?.map .value
  | some ("failure", some f) => (Failure.ofJson? (room - 1) f).map .failure
  | _ => none

end Outcome

namespace OutcomeClass

def toJson : OutcomeClass → Json
  | .value => .ofString "value"
  | .raised exception => .record [("raised", .ofString exception)]
  | .timeout => .ofString "timeout"
  | .crashed => .ofString "crashed"

def ofJson? (j : Json) : Option OutcomeClass :=
  match j.variant? with
  | some ("raised", some exception) => exception.text?.map .raised
  | some (name, content) =>
    if !Json.carriesNothing content then none
    else if name = "value" then some .value
    else if name = "timeout" then some .timeout
    else if name = "crashed" then some .crashed
    else none
  | none => none

end OutcomeClass

namespace CandidateOutcome

def toJson (c : CandidateOutcome) : Json :=
  .record [("name", .ofString c.name), ("outcome", c.outcome.toJson)]

def ofJson? (room : Nat) (j : Json) : Option CandidateOutcome :=
  match j.record? ["name", "outcome"] with
  | some [some name, some outcome] => do
    return { name := ← name.text?, outcome := ← Outcome.ofJson? (room - 1) outcome }
  | _ => none

end CandidateOutcome

end Divergence
