/-
# `Divergence.Proofs.ListDomains` — lists read entry by entry

A list with or without brackets is read as its entries are, whatever blanks
stand around them (`read_bracketed`, `read_bare`): it holds the values that the
entries are literals of, unless one of them is none.

`ListText` are the texts of a list of values: bracketed or, if there are any
values, bare, with blanks around the list and around each value.  All of them are
read as these values.
-/
import Divergence.Proofs.Closers
import Divergence.Proofs.Literals
import Divergence.Proofs.Repetition

namespace Divergence

open Divergence.Text

namespace SimpleDomain

variable {parts : List (List Char)} {s : List Char}

/-! ## Entries -/

/-- The text of an entry, with blanks around it. -/
def IsEntry (p : List Char) : Prop :=
  allBlank p = false ∧ ∀ c ∈ p, c ∉ separators

/-- The text of several entries, with a comma between any two. -/
def joined (parts : List (List Char)) : List Char :=
  [','].intercalate parts

theorem mem_joined {c : Char} (h : c ∈ joined parts) : c = ',' ∨ ∃ p ∈ parts, c ∈ p := by
  unfold joined at h
  induction parts with
  | nil => exact absurd h List.not_mem_nil
  | cons p rest ih =>
    cases rest with
    | nil =>
      rw [List.intercalate_singleton] at h
      exact .inr ⟨p, List.mem_cons_self, h⟩
    | cons q rest =>
      rw [List.intercalate_cons_cons, List.append_assoc, List.mem_append,
        List.singleton_append, List.mem_cons] at h
      rcases h with h | h | h
      · exact .inr ⟨p, List.mem_cons_self, h⟩
      · exact .inl h
      · exact (ih h).imp_right fun ⟨p', hp', hc⟩ => ⟨p', List.mem_cons_of_mem p hp', hc⟩

theorem mem_joined_of_mem {c : Char} {p : List Char} (hp : p ∈ parts) (hc : c ∈ p) :
    c ∈ joined parts := by
  unfold joined
  induction parts with
  | nil => exact absurd hp List.not_mem_nil
  | cons q rest ih =>
    cases rest with
    | nil =>
      rw [List.intercalate_singleton, ← List.mem_singleton.mp hp]
      exact hc
    | cons r rest =>
      rw [List.intercalate_cons_cons, List.append_assoc, List.mem_append,
        List.singleton_append, List.mem_cons]
      rcases List.mem_cons.mp hp with rfl | hp
      · exact .inl hc
      · exact .inr (.inr (ih hp))

/-- Of the separators there is only the comma between entries. -/
theorem not_mem_joined (h : ∀ p ∈ parts, IsEntry p) {d : Char} (hd : d ∈ separators)
    (hcomma : d ≠ ',') : d ∉ joined parts := by
  intro hmem
  rcases mem_joined hmem with heq | ⟨p, hp, hdp⟩
  · exact hcomma heq
  · exact (h p hp).2 d hdp hd

theorem allBlank_joined (h : ∀ p ∈ parts, IsEntry p) (hne : parts ≠ []) :
    allBlank (joined parts) = false := by
  obtain ⟨p, hp⟩ := List.exists_mem_of_ne_nil parts hne
  obtain ⟨c, hc, hblank⟩ := allBlank_eq_false_iff.mp (h p hp).1
  exact allBlank_eq_false_iff.mpr ⟨c, mem_joined_of_mem hp hc, hblank⟩

theorem splitAt_joined (h : ∀ p ∈ parts, IsEntry p) (hne : parts ≠ []) :
    Text.splitAt ',' (joined parts) = parts :=
  splitAt_intercalate hne fun p hp hmem => (h p hp).2 ',' hmem (by decide)

/-! ## Texts of lists -/

/-- The texts of a list of values, each of which is written by `write`: in brackets or, if
there are any, without, and with blanks around the list and around each value. -/
def ListText {α : Type} (write : α → List Char) (values : List α) (s : List Char) : Prop :=
  ∃ parts, List.Forall₂ (fun v p => Padded (write v) p) values parts ∧
    (Padded ('[' :: (joined parts ++ [']'])) s ∨ values ≠ [] ∧ s = joined parts)

/-- The text of a list of values in brackets, without blanks. -/
def listText {α : Type} (write : α → List Char) (values : List α) : List Char :=
  '[' :: (joined (values.map write) ++ [']'])

theorem listText_self {α : Type} (write : α → List Char) (values : List α) :
    ListText write values (listText write values) := by
  refine ⟨values.map write, ?_, .inl (padded_self _)⟩
  rw [List.forall₂_map_right_iff, List.forall₂_same]
  exact fun v _ => padded_self (write v)

/-! ## Reading -/

variable {α : Type} [Scalar α]

/-- Only what the entries are trimmed to matters. -/
theorem mapM_entryValue_congr {parts' : List (List Char)}
    (h : parts.map trim = parts'.map trim) :
    parts.mapM (entryValue α) = parts'.mapM (entryValue α) := by
  have hentry : entryValue α ∘ trim = entryValue α := by
    funext p
    rw [Function.comp_apply, entryValue, entryValue, ← (padded_trim p).trim_eq]
  rw [← hentry, ← List.mapM_map, ← List.mapM_map, h]

/-- A text without parentheses and tildes is read as a list. -/
theorem read_eq_readList {domain : List Char} (hs : trim s = domain)
    (h : ∀ d ∈ ['(', ')', '~'], d ∉ domain) : read α s = readList α domain := by
  have hopen := h '(' (by decide)
  have hclose := h ')' (by decide)
  have htilde := h '~' (by decide)
  rw [read, hs, readTrimmed]
  simp [hopen, hclose, htilde]

theorem readList_eq_mapM {domain entries : List Char} (hdomain : domain ≠ [])
    (hentries : dropFinal ']' (dropInitial '[' domain) = entries)
    (hopen : '[' ∉ entries) (hclose : ']' ∉ entries) :
    readList α domain =
      if allBlank entries then .ok []
      else ((Text.splitAt ',' entries).mapM (entryValue α)).map (distinctBy Scalar.same) := by
  rw [readList, if_neg (by simpa using hdomain), hentries]
  simp only [hopen, hclose, decide_false, Bool.or_self, Bool.false_eq_true, if_false]
  cases (Text.splitAt ',' entries).mapM (entryValue α) <;> rfl

/-- A list in brackets is read as its entries. -/
theorem read_bracketed (h : ∀ p ∈ parts, IsEntry p)
    (hs : trim s = '[' :: (joined parts ++ [']'])) :
    read α s = (parts.mapM (entryValue α)).map (distinctBy Scalar.same) := by
  have hentries : dropFinal ']' (dropInitial '[' ('[' :: (joined parts ++ [']']))) =
      joined parts := by
    simp [dropInitial, dropFinal]
  rw [read_eq_readList hs, readList_eq_mapM (List.cons_ne_nil _ _) hentries
    (not_mem_joined h (by decide) (by decide)) (not_mem_joined h (by decide) (by decide))]
  · cases hparts : parts with
    | nil => rfl
    | cons p rest =>
      have hne : parts ≠ [] := hparts ▸ List.cons_ne_nil p rest
      rw [← hparts, if_neg (by simp [allBlank_joined h hne]), splitAt_joined h hne]
  · intro d hd
    have hd' : d ∈ separators ∧ d ≠ ',' ∧ d ≠ '[' ∧ d ≠ ']' := by
      revert d
      simp [separators]
    simp only [List.mem_cons, List.mem_append, List.not_mem_nil, or_false, not_or]
    exact ⟨hd'.2.2.1, not_mem_joined h hd'.1 hd'.2.1, hd'.2.2.2⟩

/-- So is one without, unless it is empty. -/
theorem read_bare (h : ∀ p ∈ parts, IsEntry p) (hne : parts ≠ [])
    (hs : trim s = trim (joined parts)) :
    read α s = (parts.mapM (entryValue α)).map (distinctBy Scalar.same) := by
  have hnone {d : Char} (hd : d ∈ separators) (hcomma : d ≠ ',') : d ∉ trim (joined parts) :=
    fun hmem => not_mem_joined h hd hcomma (mem_of_mem_trim hmem)
  have hblank : allBlank (trim (joined parts)) = false := by
    rw [allBlank_trim, allBlank_joined h hne]
  have hentries : dropFinal ']' (dropInitial '[' (trim (joined parts))) = trim (joined parts) := by
    rw [dropInitial_of_not_mem (hnone (by decide) (by decide)),
      dropFinal_of_not_mem (hnone (by decide) (by decide))]
  have htrim : (Text.splitAt ',' (trim (joined parts))).map trim = parts.map trim := by
    rw [map_trim_splitAt_trim (by decide), splitAt_joined h hne]
  rw [read_eq_readList hs, readList_eq_mapM _ hentries (hnone (by decide) (by decide))
    (hnone (by decide) (by decide)), if_neg (by simp [hblank]), mapM_entryValue_congr htrim]
  · intro hnil
    rw [hnil] at hblank
    cases hblank
  · intro d hd
    have hd' : d ∈ separators ∧ d ≠ ',' := by
      revert d
      simp [separators]
    exact hnone hd'.1 hd'.2

/-- However a list of entries is written, it is read entry by entry. -/
theorem read_entries (h : ∀ p ∈ parts, IsEntry p)
    (hshape : Padded ('[' :: (joined parts ++ [']'])) s ∨ parts ≠ [] ∧ s = joined parts)
    {s' : List Char} (hs : trim s' = trim s) :
    read α s' = (parts.mapM (entryValue α)).map (distinctBy Scalar.same) := by
  rcases hshape with hpadded | ⟨hne, rfl⟩
  · apply read_bracketed h
    rw [hs, hpadded.trim_eq, trim, trimStart_eq_self, trimEnd_eq_self]
    · intro c hc
      rw [← List.cons_append, List.getLast?_concat] at hc
      cases hc
      decide
    · intro c hc
      cases hc
      decide
  · exact read_bare h hne hs

/-! ## Values -/

/-- A plain text with blanks around it is an entry, and only the text matters. -/
theorem isEntry_of_plain {w p : List Char} (hw : Plain w) (hp : Padded w p) :
    IsEntry p ∧ trim p = w := by
  obtain ⟨hne, hplain⟩ := hw
  have hblank : ∀ c ∈ w, isBlank c = false := fun c hc => (isPlain_iff.mp (hplain c hc)).1
  have htrim : trim p = w := by rw [hp.trim_eq, trim_eq_self hblank]
  refine ⟨⟨?_, ?_⟩, htrim⟩
  · obtain ⟨c, hc⟩ := List.exists_mem_of_ne_nil w hne
    rw [← allBlank_trim, htrim]
    exact allBlank_eq_false_iff.mpr ⟨c, hc, hblank c hc⟩
  · obtain ⟨a, b, ha, hb, rfl⟩ := hp
    refine List.forall_mem_append.mpr ⟨List.forall_mem_append.mpr ⟨?_, ?_⟩, ?_⟩
    · exact fun c hc => not_mem_separators_of_isBlank (allBlank_iff.mp ha c hc)
    · exact fun c hc => (isPlain_iff.mp (hplain c hc)).2
    · exact fun c hc => not_mem_separators_of_isBlank (allBlank_iff.mp hb c hc)

variable [PlainScalar α] {write : α → List Char} {values : List α}

/-- A literal with blanks around it is an entry, and is read as what it stands for. -/
theorem isEntry_of_padded {w p : List Char} {v : α} (h : Scalar.ofLiteral? w = some v)
    (hp : Padded w p) : IsEntry p ∧ entryValue α p = .ok v := by
  obtain ⟨hentry, htrim⟩ := isEntry_of_plain (PlainScalar.plain h) hp
  exact ⟨hentry, by rw [entryValue, htrim, h]⟩

theorem forall₂_entries (hwrite : ∀ v ∈ values, Scalar.ofLiteral? (write v) = some v)
    (h : List.Forall₂ (fun v p => Padded (write v) p) values parts) :
    List.Forall₂ (fun p v => IsEntry p ∧ entryValue α p = .ok v) parts values :=
  List.Forall₂.flip (((List.forall₂_and_left _ _).mpr ⟨hwrite, h⟩).imp
    fun _ _ hp => isEntry_of_padded hp.1 hp.2)

/-- Every text of a list of values is read as these values. -/
theorem ListText.read_eq_ok (h : ListText write values s)
    (hwrite : ∀ v ∈ values, Scalar.ofLiteral? (write v) = some v) (hvalues : Unrepeated values)
    {s' : List Char} (hs : trim s' = trim s) : read α s' = .ok values := by
  obtain ⟨parts, hparts, hshape⟩ := h
  have hentries := forall₂_entries hwrite hparts
  obtain ⟨hentry, hvalue⟩ := (List.forall₂_and_left _ _).mp hentries
  have hmapM : parts.mapM (entryValue α) = .ok values := mapM_eq_ok.mpr hvalue
  have hread : read α s' = (parts.mapM (entryValue α)).map (distinctBy Scalar.same) := by
    refine read_entries hentry (hshape.imp_right fun ⟨hne, hbare⟩ => ⟨?_, hbare⟩) hs
    rintro rfl
    exact hne (List.forall₂_nil_left_iff.mp hvalue)
  rw [hread, hmapM, Except.map, distinctBy_eq_self hvalues]

/-- A text of a list has no parenthesis and no colon, but is not blank. -/
theorem ListText.exposed (h : ListText write values s)
    (hwrite : ∀ v ∈ values, Scalar.ofLiteral? (write v) = some v) :
    (∀ d ∈ ['(', ')', ':'], d ∉ s) ∧ Solid s := by
  obtain ⟨parts, hparts, hshape⟩ := h
  have hentries := forall₂_entries hwrite hparts
  obtain ⟨hentry, -⟩ := (List.forall₂_and_left _ _).mp hentries
  have hjoined : ∀ d ∈ ['(', ')', ':'], d ∉ joined parts := by
    intro d hd
    have hseparator : d ∈ separators ∧ d ≠ ',' := by
      revert d
      simp [separators]
    exact not_mem_joined hentry hseparator.1 hseparator.2
  rcases hshape with hpadded | ⟨hne, rfl⟩
  · refine ⟨fun d hd => ?_, '[', hpadded.subset List.mem_cons_self, by decide, by decide⟩
    have hother : isBlank d = false ∧ d ≠ '[' ∧ d ≠ ']' := by
      revert d
      simp [isBlank]
    apply hpadded.not_mem hother.1
    simp only [List.mem_cons, List.mem_append, List.not_mem_nil, or_false, not_or]
    exact ⟨hother.2.1, hjoined d hd, hother.2.2⟩
  · refine ⟨hjoined, ?_⟩
    cases hentries with
    | nil => exact absurd rfl hne
    | @cons p v rest _ hp _ =>
      obtain ⟨c, hc, hblank⟩ := allBlank_eq_false_iff.mp hp.1.1
      refine ⟨c, mem_joined_of_mem List.mem_cons_self hc, hblank, ?_⟩
      rintro rfl
      exact hp.1.2 ')' hc (by decide)

end SimpleDomain

end Divergence
