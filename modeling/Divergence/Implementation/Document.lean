/-
# `Divergence.Implementation.Document` — implementations and settings as JSON documents

Implementations are written with the names they have; reading them back does
not rename anything.  All members of the settings have to be present, except
for the seed of the generator, which may be absent or `null`.
-/
import Divergence.Implementation.Basic
import Divergence.Json.Record
import Divergence.Settings

namespace Divergence

namespace Implementation

def toJson (i : Implementation) : Json :=
  .record [("name", .ofString i.name), ("path", .ofString i.path)]

def ofJson? (j : Json) : Option Implementation :=
  match j.record? ["name", "path"] with
  | some [some name, some path] => do return { name := ← name.text?, path := ← path.text? }
  | _ => none

end Implementation

namespace Implementations

def toJson (i : Implementations) : Json :=
  .record [("reference", i.reference.toJson),
    ("candidates", .array (i.candidates.map Implementation.toJson))]

def ofJson? (j : Json) : Option Implementations :=
  match j.record? ["reference", "candidates"] with
  | some [some reference, some candidates] => do
    let reference ← Implementation.ofJson? reference
    let candidates ← (← candidates.items?).mapM Implementation.ofJson?
    return { reference, candidates }
  | _ => none

end Implementations

namespace RunSettings

def toJson (s : RunSettings) : Json :=
  .record [("python", .ofString s.interpreter), ("timeout_ms", .ofNat s.timeoutMs),
    ("max_concurrency", .ofNat s.maxConcurrency)]

def ofJson? (j : Json) : Option RunSettings :=
  match j.record? ["python", "timeout_ms", "max_concurrency"] with
  | some [some interpreter, some timeoutMs, some maxConcurrency] => do
    return { interpreter := ← interpreter.text?, timeoutMs := ← timeoutMs.word?,
             maxConcurrency := ← maxConcurrency.word? }
  | _ => none

end RunSettings

namespace SamplingSettings

def toJson (s : SamplingSettings) : Json :=
  .record [("seed", (s.seed.map Json.ofNat).getD .null)]

def ofJson? (j : Json) : Option SamplingSettings :=
  match j.record? ["seed"] with
  | some [none] | some [some .null] => some { seed := none }
  | some [some seed] => seed.word?.map fun n => { seed := some n }
  | _ => none

end SamplingSettings

end Divergence
