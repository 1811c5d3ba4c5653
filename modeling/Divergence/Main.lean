/-
# `Divergence.Main` — the command line

Looks up the files that the arguments mention, runs the session on what it
found, and writes what the session ends with.  Implementations are rehearsed:
an implementation's file holds the plan that its process acts out.
-/
import Divergence.CommandLine.Session
import Divergence.Worker.Rehearsal

namespace Divergence.CommandLine

inductive Found where
  | file (text : String)
  | directory (names : List String)
  | nothing (reason : String)

/-- Paths with what was found there. -/
abbrev Snapshot := List (String × Found)

def Snapshot.find (s : Snapshot) (path : String) : Found :=
  (s.lookup path).getD (.nothing "No such file or directory (os error 2)")

/-- What becomes of a process for an implementation's file. -/
def Snapshot.launch (s : Snapshot) (l : Worker.Launch) : Worker.Fate :=
  match s.find l.path with
  | .file text =>
    match Worker.Plan.read? text with
    | some plan => plan.act l.stdin
    | none => .notStarted "Exec format error (os error 8)"
  | .directory _ => .notStarted "Is a directory (os error 21)"
  | .nothing reason => .notStarted reason

/-- The surroundings that were found. -/
def Snapshot.host (s : Snapshot) (freshSeed : Nat) : Host where
  readText path :=
    match s.find path with
    | .file text => .ok text
    | .directory _ => .error "Is a directory (os error 21)"
    | .nothing reason => .error reason
  isFile path := match s.find path with
    | .file _ => true
    | _ => false
  isDirectory path := match s.find path with
    | .directory _ => true
    | _ => false
  entries path := match s.find path with
    | .directory names => names
    | _ => []
  launch := s.launch
  freshSeed := freshSeed

def reasonOf : IO.Error → String
  | .noFileOrDirectory _ _ _ => "No such file or directory (os error 2)"
  | .permissionDenied _ _ _ => "Permission denied (os error 13)"
  | e => toString e

def look (path : String) : IO Found := do
  let here ← IO.currentDir
  let place := here / path
  if ← place.isDir then
    return .directory ((← place.readDir).toList.map fun e => e.fileName)
  else
    try
      return .file (← IO.FS.readFile place)
    catch e =>
      return .nothing (reasonOf e)

/-- Looks up a path and, if it is a directory, everything in it. -/
def lookInside (path : String) : IO Snapshot := do
  let found ← look path
  match found with
  | .directory names =>
    let inside ← names.mapM fun name => do
      let file := String.ofList (Text.child path.toList name.toList)
      return (file, ← look file)
    return (path, found) :: inside
  | _ => return [(path, found)]

/-- Looks up everything that a command line mentions. -/
def lookAll (arguments : List String) : IO Snapshot := do
  match Arguments.ofList? arguments with
  | none => return []
  | some a =>
    let fixed ← [a.config, a.reference].mapM fun path => do return (path, ← look path)
    let candidates ← a.candidates.mapM lookInside
    return fixed ++ candidates.flatten

end Divergence.CommandLine

open Divergence.CommandLine in
def main (arguments : List String) : IO UInt32 := do
  let snapshot ← lookAll arguments
  let freshSeed ← IO.rand 0 0xFFFFFFFFFFFFFFFF
  let ending := run (snapshot.host freshSeed) arguments
  IO.print ending.output
  match ending.errorLine? with
  | some line => IO.eprintln line
  | none => pure ()
  return UInt32.ofNat ending.code
