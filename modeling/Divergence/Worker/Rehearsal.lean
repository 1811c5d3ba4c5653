/-
# `Divergence.Worker.Rehearsal` — implementations that act out a plan

To try a specification, or the whole of a campaign, without any interpreter,
an implementation can be replaced by a plan: a JSON object whose `rules` say
how the process behaves.  The first rule whose `if` text occurs in the
arguments is acted out; a rule without `if` always applies, and where none
applies the arguments come back as the returned value.

A rule may make the process hang, print to its standard output and error
output, report a value, an exception or a loading error in the form that a
real implementation would, and choose how the process ends.
-/
import Divergence.Json.Reader
import Divergence.Json.Writer
import Divergence.Worker.Executor

namespace Divergence.Worker

/-- What a rehearsed process reports. -/
inductive Reply where
  /-- The arguments themselves, as the returned value. -/
  | echo
  /-- The number of bytes of the arguments, as the returned value. -/
  | echoLength
  | value (printed : String)
  | raised (exception message : String)
  | loadError (message : String)

/-- How a rehearsed process behaves for some arguments. -/
structure Rule where
  /-- A text that has to occur in the arguments; none for a rule that always applies. -/
  condition : Option String
  /-- Does nothing until it is killed. -/
  hangs : Bool
  /-- Does not read the arguments, which then count as empty. -/
  ignoresInput : Bool
  stdout : List UInt8
  reply : Option Reply
  stderr : List UInt8
  /-- The exit code; none to die of a signal. -/
  code : Option Int

structure Plan where
  rules : List Rule

namespace Rule

/-- The rule for arguments to which no other applies. -/
def default : Rule where
  condition := none
  hangs := false
  ignoresInput := false
  stdout := []
  reply := some .echo
  stderr := []
  code := some 0

/-- Whether a rule applies to some arguments. -/
def applies (arguments : String) (r : Rule) : Bool :=
  match r.condition with
  | none => true
  | some needle => Text.occursIn needle.toList arguments.toList

end Rule

def Reply.toJson (arguments : String) : Reply → Json
  | .echo => .record [("value", .ofString arguments)]
  | .echoLength => .record [("value", .ofString (toString arguments.utf8ByteSize))]
  | .value printed => .record [("value", .ofString printed)]
  | .raised exception message =>
    .record [("raised", .record [("exception", .ofString exception),
      ("message", .ofString message)])]
  | .loadError message => .record [("load_error", .ofString message)]

/-- The line of a report, after an empty one. -/
def Reply.line (arguments : String) (r : Reply) : String :=
  String.ofList ('\n' :: (marker ++ (r.toJson arguments).compact ++ ['\n']))

def bytes (s : String) : List UInt8 :=
  s.toUTF8.toList

/-- What becomes of a process that acts out a rule. -/
def Rule.act (arguments : String) (r : Rule) : Fate :=
  if r.hangs then .timedOut
  else
    .finished
      { stdout := r.stdout ++ ((r.reply.map fun reply => bytes (reply.line arguments)).getD [])
        stderr := r.stderr
        code := r.code }

/-- What becomes of a process that acts out a plan. -/
def Plan.act (arguments : String) (p : Plan) : Fate :=
  let ignored := (p.rules.head?.map Rule.ignoresInput).getD false
  let arguments := if ignored then "" else arguments
  ((p.rules.find? (Rule.applies arguments)).getD Rule.default).act arguments

/-! ## Plans as documents -/

/-- The value of a member of an object, unless it is absent or `null`. -/
def member? (j : Json) (name : String) : Option Json :=
  match j with
  | .object members => (Json.lastNamed? members name).filter fun value => !value.isNull
  | _ => none

def text? (j : Json) (name : String) : Option String :=
  (member? j name).bind Json.text?

def flag (j : Json) (name : String) : Bool :=
  match member? j name with
  | some (.bool b) => b
  | _ => false

def integer? (j : Json) (name : String) : Option Int :=
  match member? j name with
  | some (.number (.integer i)) => some i
  | _ => none

/-- The bytes that pairs of hexadecimal digits stand for. -/
def hexBytes : List Char → List UInt8
  | a :: b :: rest =>
    match Json.hexDigit? a, Json.hexDigit? b with
    | some high, some low => UInt8.ofNat (high * 16 + low) :: hexBytes rest
    | _, _ => hexBytes rest
  | _ => []

/-- The bytes of a member that is given as a text or, under another name, as
hexadecimal digits. -/
def bytesOf (j : Json) (name hexName : String) : List UInt8 :=
  match text? j hexName with
  | some digits => hexBytes digits.toList
  | none => ((text? j name).map bytes).getD []

/-- Some bytes a number of times over. -/
def repeated (n : Nat) (b : List UInt8) : List UInt8 :=
  (List.replicate n b).flatten

def Reply.ofJson? (j : Json) : Option Reply :=
  if flag j "echo" then some .echo
  else if flag j "echo_len" then some .echoLength
  else
    match text? j "value", member? j "raised", text? j "load_error" with
    | some printed, _, _ => some (.value printed)
    | none, some (.array [.string (some exception), .string (some message)]), _ =>
      some (.raised exception message)
    | none, _, some message => some (.loadError message)
    | none, _, none => none

def Rule.ofJson (j : Json) : Rule where
  condition := text? j "if"
  hangs := flag j "hang"
  ignoresInput := flag j "noread"
  stdout := bytesOf j "stdout" "stdout_hex"
  reply := Reply.ofJson? j
  stderr :=
    repeated ((integer? j "stderr_repeat").getD 1).toNat (bytesOf j "stderr" "stderr_hex") ++
      ((text? j "stderr_end").map bytes).getD []
  code := if flag j "abort" then none else some (((integer? j "exit").getD 0) % 256)

def Plan.ofJson (j : Json) : Plan where
  rules := (((member? j "rules").bind Json.items?).getD []).map Rule.ofJson

/-- The plan of a text; none if it is no JSON. -/
def Plan.read? (text : String) : Option Plan :=
  (Json.readSound? text.toList).map Plan.ofJson

end Divergence.Worker
