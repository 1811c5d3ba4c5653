/-
# `Divergence.Worker.Basic` — what a finished process has to say

An implementation runs in a process of its own, which prints a report: a line
that starts with a marker and goes on with a JSON variant, either the printed
form of the returned value, or the exception that was raised, or why the
implementation could not be loaded.  The function under test may print
whatever it likes before and after; the last line with the marker counts.

A process without a report has crashed, and all that is known of it is its
exit code and the end of its error output.
-/
import Divergence.Json.Reader
import Divergence.Json.Record
import Divergence.Outcome.Basic
import Divergence.RunError
import Divergence.Text.Utf8

namespace Divergence.Worker

open Divergence.Text

/-- A process that ended. -/
structure Finished where
  stdout : List UInt8
  stderr : List UInt8
  /-- The exit code; none if a signal ended the process. -/
  code : Option Int

def marker : List Char :=
  "__DIFFTEST__".toList

/-- The number of bytes of error output that are kept. -/
def tailBytes : Nat := 2048

/-- The end of the error output, without the blanks at its very end. -/
def stderrTail (stderr : List UInt8) : String :=
  String.ofList (fittingEnd tailBytes (trimEnd (decode stderr)))

/-- What a report line holds after its marker. -/
inductive CallReport where
  | value (printed : String)
  | raised (exception message : String)
  | loadError (message : String)
  deriving DecidableEq, Repr

def CallReport.ofJson? (j : Json) : Option CallReport :=
  match j.variant? with
  | some ("value", some printed) => printed.text?.map .value
  | some ("raised", some content) =>
    match content.record? ["exception", "message"] with
    | some [some exception, some message] => do
      return .raised (← exception.text?) (← message.text?)
    | _ => none
  | some ("load_error", some message) => message.text?.map .loadError
  | _ => none

/-- The text after the marker in the last line that starts with it. -/
def lastReport? (stdout : List Char) : Option (List Char) :=
  ((lines stdout).reverse.find? fun line => marker.isPrefixOf line).map fun line =>
    line.drop marker.length

/-- The outcome that a finished process stands for, for an implementation's name and a
function. -/
def outcome (name function : String) (p : Finished) : Except RunError Outcome :=
  match lastReport? (decode p.stdout) with
  | none => .ok (.failure (.crashed p.code (stderrTail p.stderr)))
  | some report =>
    match (Json.read? report).bind CallReport.ofJson? with
    | none => .error (.unreadableReport name (String.ofList report))
    | some (.value printed) => .ok (.value printed)
    | some (.raised exception message) => .ok (.failure (.raised exception message))
    | some (.loadError message) => .error (.loadFailed name function message)

end Divergence.Worker
