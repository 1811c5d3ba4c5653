/-
# `Divergence.Worker.Executor` — running implementations as processes

Each call starts a process of the interpreter for the implementation's file,
hands it the arguments as the literal of a tuple, and waits for it no longer
than the settings allow; with no time allowed at all no process is in time.
A process cannot be started with a text that holds a NUL character.  What the
surroundings contribute is a `Host`: the files there are, and what becomes of
a process.
-/
import Divergence.Worker.Basic
import Divergence.Settings
import Divergence.Trial.Run
import Divergence.Value.Literal

namespace Divergence

namespace Worker

/-- What becomes of a process. -/
inductive Fate where
  | finished (p : Finished)
  /-- It was still running when its time was up. -/
  | timedOut
  /-- It could not be started. -/
  | notStarted (reason : String)

/-- A call as a process is started for it. -/
structure Launch where
  interpreter : String
  /-- The file of the implementation. -/
  path : String
  function : String
  /-- What the process can read from its standard input. -/
  stdin : String

/-- Whether a process can be started with the texts of a launch. -/
def Launch.isPossible (l : Launch) : Bool :=
  [l.interpreter, l.path, l.function].all fun text => '\x00' ∉ text.toList

end Worker

/-- The surroundings of a run. -/
structure Host where
  /-- The text of a file, or why it cannot be read. -/
  readText : (path : String) → Except String String
  isFile : (path : String) → Bool
  isDirectory : (path : String) → Bool
  /-- The names of the entries of a directory, in any order. -/
  entries : (path : String) → List String
  launch : Worker.Launch → Worker.Fate
  /-- A seed for runs that are given none. -/
  freshSeed : Nat

namespace Worker

def checkFile (host : Host) (i : Implementation) : Except RunError Unit :=
  if host.isFile i.path then .ok () else .error (.missingImplementation i.name i.path)

/-- The process to start for a call. -/
def launchOf (settings : RunSettings) (i : Implementation) (function : String) (input : Input) :
    Launch where
  interpreter := settings.interpreter
  path := i.path
  function := function
  stdin := input.arguments

def call (host : Host) (settings : RunSettings) (i : Implementation) (function : String)
    (input : Input) : Except RunError Outcome :=
  let launch := launchOf settings i function input
  if !launch.isPossible then
    .error (.cannotStart settings.interpreter "nul byte found in provided data")
  else
    match host.launch launch with
    | .notStarted reason => .error (.cannotStart settings.interpreter reason)
    | .timedOut => .ok (.failure (.timeout settings.timeoutMs))
    | .finished p =>
      if settings.timeoutMs = 0 then .ok (.failure (.timeout 0))
      else outcome i.name function p

/-- The executor that starts a process for each call. -/
def executor (host : Host) (settings : RunSettings) : Executor where
  check := checkFile host
  execute := call host settings

end Worker

end Divergence
