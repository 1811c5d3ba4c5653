/-
# `Divergence.ConciseSet` — few inputs that show every divergence

From the trials of a run a few are selected that together exhibit every
signature: again and again the trial that adds the most signatures not
covered so far, the one with the smallest index among several, until as many
signatures are covered as there are.  A selected trial is kept with the
signatures it was the first to cover.

What is covered and which trials are taken can be read off the trials selected
so far, so these are the whole state of the selection.  It also ends if no
trial adds a signature while some are not covered; a step tells the two ends
apart.  Each selection takes a trial that was not taken, which is why there
are only so many.
-/
import Divergence.Signature

namespace Divergence

/-- A trial of the concise set. -/
structure Selected where
  /-- The place of the trial among all trials. -/
  position : Nat
  trial : Trial
  /-- The signatures that no trial selected before it exhibits. -/
  covers : List Signature

namespace ConciseSet

/-- The signatures that some trials exhibit together. -/
def allSignatures (trials : List Trial) : List Signature :=
  Ordered.elements Signature.cmp (trials.flatMap Trial.signatures)

def covered (selected : List Selected) : List Signature :=
  selected.flatMap Selected.covers

def taken (selected : List Selected) : List Nat :=
  selected.map Selected.position

/-- A trial with the signatures it would be the first to cover. -/
def offer (covered : List Signature) (t : Trial) (position : Nat) : Selected where
  position := position
  trial := t
  covers := t.signatures.filter fun s => s ∉ covered

/-- The trials to choose from: those that are not taken and add a signature. -/
def offers (trials : List Trial) (selected : List Selected) : List Selected :=
  let taken := taken selected
  let covered := covered selected
  (trials.zipIdx.filter fun p => p.2 ∉ taken).map (fun p => offer covered p.1 p.2)
    |>.filter fun s => !s.covers.isEmpty

/-- The one of two trials to select: the one that adds more signatures, the smaller index
if they add as many, and the first of them if that does not decide it either. -/
def better (a b : Selected) : Selected :=
  if a.covers.length < b.covers.length ∨
      (a.covers.length = b.covers.length ∧ b.trial.index < a.trial.index) then b else a

/-- The one of several trials to select. -/
def best? : List Selected → Option Selected
  | [] => none
  | s :: rest => some (rest.foldl better s)

/-- What the selection does next. -/
inductive Step where
  /-- It ends: as many signatures are covered as there are. -/
  | complete
  /-- It ends: no trial adds a signature. -/
  | stuck
  | select (s : Selected)

/-- The next step, for trials that exhibit the signatures `all`. -/
def next (trials : List Trial) (all : List Signature) (selected : List Selected) : Step :=
  if (covered selected).length < all.length then
    match best? (offers trials selected) with
    | some s => .select s
    | none => .stuck
  else .complete

/-! ## A selection takes a trial that was not taken -/

theorem foldl_better_mem (s : Selected) (rest : List Selected) :
    rest.foldl better s ∈ s :: rest := by
  induction rest generalizing s with
  | nil => exact List.mem_singleton.mpr rfl
  | cons t rest ih =>
    have hst : better s t = s ∨ better s t = t := by
      unfold better
      split
      · exact .inr rfl
      · exact .inl rfl
    rcases List.mem_cons.mp (ih (better s t)) with h | h
    · rw [List.foldl_cons, h]
      rcases hst with hs | ht
      · rw [hs]; exact List.mem_cons_self
      · rw [ht]; exact List.mem_cons_of_mem _ List.mem_cons_self
    · exact List.mem_cons_of_mem _ (List.mem_cons_of_mem _ h)

theorem best?_mem {all : List Selected} {s : Selected} (h : best? all = some s) : s ∈ all := by
  cases all with
  | nil => cases h
  | cons t rest =>
    cases h
    exact foldl_better_mem t rest

theorem mem_offers {trials : List Trial} {selected : List Selected} {s : Selected} :
    s ∈ offers trials selected ↔
      ∃ t, trials[s.position]? = some t ∧ s.position ∉ taken selected ∧
        s = offer (covered selected) t s.position ∧ s.covers ≠ [] := by
  simp only [offers, List.mem_filter, List.mem_map, Prod.exists, List.mem_zipIdx_iff_getElem?,
    decide_eq_true_eq, Bool.not_eq_true', List.isEmpty_eq_false_iff]
  constructor
  · rintro ⟨⟨t, i, ⟨ht, hi⟩, rfl⟩, hs⟩
    exact ⟨t, ht, hi, rfl, hs⟩
  · rintro ⟨t, ht, hi, hs, hne⟩
    exact ⟨⟨t, s.position, ⟨ht, hi⟩, hs.symm⟩, hne⟩

theorem next_eq_select {trials : List Trial} {all : List Signature} {selected : List Selected}
    {s : Selected} (h : next trials all selected = .select s) :
    best? (offers trials selected) = some s := by
  unfold next at h
  split at h
  · split at h
    · next hbest => cases h; exact hbest
    · cases h
  · cases h

def untaken (trials : List Trial) (selected : List Selected) : List Nat :=
  (List.range trials.length).filter fun i => i ∉ taken selected

theorem length_untaken_lt {trials : List Trial} {all : List Signature}
    {selected : List Selected} {s : Selected} (h : next trials all selected = .select s) :
    (untaken trials (selected ++ [s])).length < (untaken trials selected).length := by
  obtain ⟨t, ht, hfree, -, -⟩ := mem_offers.mp (best?_mem (next_eq_select h))
  have hlt : s.position < trials.length := (List.getElem?_eq_some_iff.mp ht).1
  have hsplit : untaken trials (selected ++ [s]) =
      (untaken trials selected).filter fun i => i ≠ s.position := by
    simp only [untaken, List.filter_filter]
    congr 1
    funext i
    simp [taken, Bool.and_comm]
  rw [hsplit, List.length_filter_lt_length_iff_exists]
  refine ⟨s.position, ?_, by simp⟩
  simp only [untaken, List.mem_filter, List.mem_range]
  exact ⟨hlt, by simpa using hfree⟩

/-! ## The selection -/

/-- The trials selected from those selected so far on. -/
def selectFrom (trials : List Trial) (all : List Signature) (selected : List Selected) :
    List Selected :=
  match _h : next trials all selected with
  | .select s => selectFrom trials all (selected ++ [s])
  | .complete | .stuck => selected
termination_by (untaken trials selected).length
decreasing_by exact length_untaken_lt _h

/-- The concise set of some trials, in the order of selection. -/
def ofTrials (trials : List Trial) : List Selected :=
  selectFrom trials (allSignatures trials) []

end ConciseSet

end Divergence
