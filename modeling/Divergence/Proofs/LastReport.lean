/-
# `Divergence.Proofs.LastReport` — a report is found whatever was printed

The function under test may print what it likes before its report, bytes that are
no text and lines that look like reports included.  A report that has a line feed
before it is on a line of its own all the same, and the last line with the marker
is the report unless something printed later has one too (`reported`).

So the outcome of a process depends on its report alone, and on its exit code and
its error output only if there is none: it has crashed then, and not otherwise
(`outcome_eq_crashed_iff`).
-/
import Divergence.Proofs.Closers
import Divergence.Proofs.Decoding
import Divergence.Worker.Basic

namespace Divergence.Worker

open Divergence.Text

/-- No line of the text starts with the marker. -/
def Silent (s : List Char) : Prop :=
  ∀ line ∈ lines s, ¬ marker <+: line

/-- The line of a report, with its line feed. -/
def reportLine (payload : List Char) : List Char :=
  marker ++ payload ++ ['\n']

variable {payload s : List Char}

/-! ## The last line with the marker -/

theorem lastReport?_eq_none : lastReport? s = none ↔ Silent s := by
  simp only [lastReport?, Option.map_eq_none_iff, List.find?_eq_none, List.mem_reverse,
    List.isPrefixOf_iff_prefix, Silent]

/-- Lines without the marker do not hide a line that has it. -/
theorem lastReport?_eq_some {before after : List (List Char)} {line : List Char}
    (hs : lines s = before ++ line :: after) (hline : marker <+: line)
    (hafter : ∀ line ∈ after, ¬ marker <+: line) :
    lastReport? s = some (line.drop marker.length) := by
  have hnone : after.reverse.find? (fun line => marker.isPrefixOf line) = none := by
    simpa only [List.find?_eq_none, List.mem_reverse, List.isPrefixOf_iff_prefix] using hafter
  have hfirst : marker.isPrefixOf line = true := List.isPrefixOf_iff_prefix.mpr hline
  rw [lastReport?, hs, List.reverse_append, List.reverse_cons, List.append_assoc,
    List.find?_append, hnone, Option.none_or, List.singleton_append, List.find?_cons_of_pos hfirst,
    Option.map_some]

/-- The line of a report is one line, and what follows it starts another. -/
theorem lines_reportLine_append (hpayload : '\n' ∉ payload) (after : List Char) :
    lines (reportLine payload ++ after) = dropFinal '\r' (marker ++ payload) :: lines after := by
  have hmarker : '\n' ∉ marker := by decide
  have hline : '\n' ∉ marker ++ payload := by
    rw [List.mem_append, not_or]
    exact ⟨hmarker, hpayload⟩
  rw [reportLine, List.append_assoc, List.singleton_append, lines_append,
    splitAt_of_not_mem hline]
  rfl

/-- The carriage return that a line may lose is not one of the marker. -/
theorem dropFinal_marker_append (payload : List Char) :
    dropFinal '\r' (marker ++ payload) = marker ++ dropFinal '\r' payload := by
  cases payload with
  | nil => rfl
  | cons c payload => exact dropFinal_append (List.cons_ne_nil c payload) marker

/-- A report that starts a line is found if no later line has the marker. -/
theorem lastReport?_reported (hpayload : '\n' ∉ payload) {after : List Char}
    (hafter : Silent after) {before : List (List Char)}
    (hs : lines s = before ++ lines (reportLine payload ++ after)) :
    lastReport? s = some (dropFinal '\r' payload) := by
  rw [lines_reportLine_append hpayload, dropFinal_marker_append] at hs
  rw [lastReport?_eq_some hs (List.prefix_append _ _) hafter, List.drop_left]

/-- A report that was printed alone is found. -/
theorem lastReport?_reportLine (hpayload : '\n' ∉ payload) :
    lastReport? (reportLine payload) = some (dropFinal '\r' payload) := by
  have hnothing : Silent [] := by
    intro line hline
    cases hline
  have hlines : lines (reportLine payload) = [] ++ lines (reportLine payload ++ []) := by
    rw [List.append_nil, List.nil_append]
  exact lastReport?_reported hpayload hnothing hlines

/-- A line feed before a report ends whatever was printed before. -/
theorem decode_around (noise after : List UInt8) (s : List Char) :
    decode (noise ++ encode ('\n' :: s) ++ after) =
      decode noise ++ '\n' :: (s ++ decode after) := by
  have hnewline : encode ('\n' :: s) = 10 :: encode s := rfl
  rw [hnewline, List.append_assoc, List.cons_append, decode_append_ascii (by decide),
    decode_encode_append]
  rfl

/-! ## Outcomes -/

variable {name function : String} {p q : Finished}

/-- Processes with the same report have the same outcome. -/
theorem outcome_eq_of_lastReport? {report : List Char}
    (hp : lastReport? (decode p.stdout) = some report)
    (hq : lastReport? (decode q.stdout) = some report) :
    outcome name function p = outcome name function q := by
  simp only [outcome, hp, hq]

/-- A process has crashed exactly if it has no report, whatever a report may hold. -/
theorem outcome_eq_crashed_iff {code : Option Int} {stderr : String} :
    outcome name function p = .ok (.failure (.crashed code stderr)) ↔
      Silent (decode p.stdout) ∧ code = p.code ∧ stderr = stderrTail p.stderr := by
  rw [← lastReport?_eq_none, outcome]
  cases lastReport? (decode p.stdout) with
  | none =>
    constructor
    · intro h
      cases h
      exact ⟨rfl, rfl, rfl⟩
    · rintro ⟨-, rfl, rfl⟩
      rfl
  | some report =>
    constructor
    · intro h
      dsimp only at h
      split at h <;> cases h
    · rintro ⟨h, -, -⟩
      cases h

/-- A report on a line of its own decides the outcome of a process, whatever bytes come before
it, and whatever comes after it unless that has the marker as well: the outcome is that of a
process that printed the report and nothing else, and ended well.  A process has crashed if and
only if no line that it printed starts with the marker, and it has then crashed with its exit
code and the end of its error output. -/
theorem reported (name function : String) :
    (∀ (noise after stderr : List UInt8) (code : Option Int) (payload : List Char),
      '\n' ∉ payload → Silent (decode after) →
      outcome name function ⟨noise ++ encode ('\n' :: reportLine payload) ++ after, stderr, code⟩ =
        outcome name function ⟨encode (reportLine payload), [], some 0⟩) ∧
    ∀ (p : Finished) (code : Option Int) (stderr : String),
      outcome name function p = .ok (.failure (.crashed code stderr)) ↔
        Silent (decode p.stdout) ∧ code = p.code ∧ stderr = stderrTail p.stderr := by
  refine ⟨?_, fun p code stderr => outcome_eq_crashed_iff⟩
  intro noise after stderr code payload hpayload hafter
  have hlong : lastReport? (decode (noise ++ encode ('\n' :: reportLine payload) ++ after)) =
      some (dropFinal '\r' payload) :=
    lastReport?_reported hpayload hafter (by rw [decode_around, lines_append])
  have hshort : lastReport? (decode (encode (reportLine payload))) =
      some (dropFinal '\r' payload) := by
    rw [decode_encode, lastReport?_reportLine hpayload]
  exact outcome_eq_of_lastReport? hlong hshort

/-- What a function printed that pretends to have returned something, and then half of a
character. -/
def pretence : List UInt8 :=
  encode "__DIFFTEST__\x7b\"value\": \"1\"\x7d\r\n".toList ++ [0xE2, 0x82]

/-- What was returned. -/
def truth : List Char :=
  "\x7b\"value\": \"é\"\x7d".toList

theorem reported_pretence :
    '\n' ∉ truth ∧ Silent (decode (encode "bye __DIFFTEST__".toList)) ∧
    outcome "impl" "f"
      ⟨pretence ++ encode ('\n' :: reportLine truth) ++ encode "bye __DIFFTEST__".toList, [0x21],
        none⟩ = .ok (.value "é") := by
  have htruth : '\n' ∉ truth := by decide
  have hafter : Silent (decode (encode "bye __DIFFTEST__".toList)) := by
    rw [decode_encode]
    unfold Silent
    decide
  have hread : (Json.read? (dropFinal '\r' truth)).bind CallReport.ofJson? = some (.value "é") := by
    decide +kernel
  refine ⟨htruth, hafter, ?_⟩
  calc outcome "impl" "f" _ = outcome "impl" "f" ⟨encode (reportLine truth), [], some 0⟩ :=
        (reported "impl" "f").1 pretence _ _ _ _ htruth hafter
    _ = .ok (.value "é") := by
        simp only [outcome, decode_encode, lastReport?_reportLine htruth, hread]

end Divergence.Worker
