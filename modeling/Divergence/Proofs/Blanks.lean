/-
# `Divergence.Proofs.Blanks` — what trimming does to a text

Trimming takes blanks off both ends and nothing else, so a text and the text
with blanks around it (`Padded`) are trimmed to the same.  A text with something
in it that is not blank can be trimmed at one end while something else stands at
the other.

Splitting a list and trimming its parts comes to the same whether or not the
list was trimmed before.
-/
import Divergence.Text.Blank
import Mathlib.Data.List.DropRight
import Mathlib.Data.List.TakeWhile

namespace Divergence.Text

/-! ## Blank texts -/

theorem allBlank_iff {s : List Char} : allBlank s = true ↔ ∀ c ∈ s, isBlank c = true := by
  rw [allBlank, List.all_eq_true]

theorem allBlank_eq_false_iff {s : List Char} :
    allBlank s = false ↔ ∃ c ∈ s, isBlank c = false := by
  rw [← Bool.not_eq_true, allBlank_iff]
  simp only [not_forall, exists_prop, Bool.not_eq_true]

theorem trimStart_eq_nil {s : List Char} : trimStart s = [] ↔ allBlank s = true := by
  rw [trimStart, List.dropWhile_eq_nil_iff, allBlank_iff]

theorem trimEnd_eq_nil {s : List Char} : trimEnd s = [] ↔ allBlank s = true := by
  rw [trimEnd, List.reverse_eq_nil_iff, ← trimStart, trimStart_eq_nil, allBlank, allBlank,
    List.all_reverse]

/-! ## One end at a time -/

theorem trimStart_blank_append {a : List Char} (h : allBlank a = true) (s : List Char) :
    trimStart (a ++ s) = trimStart s :=
  List.dropWhile_append_of_pos (allBlank_iff.mp h)

theorem trimEnd_append_blank {b : List Char} (h : allBlank b = true) (s : List Char) :
    trimEnd (s ++ b) = trimEnd s := by
  rw [trimEnd, List.reverse_append, ← trimStart, trimStart_blank_append]
  · rfl
  · rwa [allBlank, List.all_reverse]

theorem trimStart_append {s : List Char} (h : allBlank s = false) (t : List Char) :
    trimStart (s ++ t) = trimStart s ++ t := by
  have hne : (trimStart s).isEmpty = false := by
    rw [List.isEmpty_eq_false_iff, ne_eq, trimStart_eq_nil, h]
    exact Bool.false_ne_true
  rw [trimStart, List.dropWhile_append, ← trimStart, hne]
  rfl

theorem trimEnd_append {t : List Char} (h : allBlank t = false) (s : List Char) :
    trimEnd (s ++ t) = s ++ trimEnd t := by
  have hreverse : allBlank t.reverse = false := by rwa [allBlank, List.all_reverse]
  rw [trimEnd, List.reverse_append, ← trimStart, trimStart_append hreverse,
    List.reverse_append, List.reverse_reverse]
  rfl

theorem trimEnd_cons {c : Char} (h : isBlank c = false) (s : List Char) :
    trimEnd (c :: s) = c :: trimEnd s := by
  cases hs : allBlank s with
  | true =>
    have hc : trimEnd [c] = [c] := by simp [trimEnd, h]
    rw [← List.singleton_append, trimEnd_append_blank hs, hc, trimEnd_eq_nil.mpr hs]
  | false => exact trimEnd_append hs [c]

/-! ## Padding -/

/-- A text with blanks around it. -/
def Padded (core s : List Char) : Prop :=
  ∃ a b, allBlank a = true ∧ allBlank b = true ∧ s = a ++ core ++ b

theorem padded_self (s : List Char) : Padded s s :=
  ⟨[], [], rfl, rfl, by rw [List.nil_append, List.append_nil]⟩

theorem padded_trimStart (s : List Char) : Padded (trimStart s) s := by
  refine ⟨s.takeWhile isBlank, [], ?_, rfl, ?_⟩
  · exact allBlank_iff.mpr fun c hc => List.mem_takeWhile_imp hc
  · rw [List.append_nil, trimStart, List.takeWhile_append_dropWhile]

theorem padded_trimEnd (s : List Char) : Padded (trimEnd s) s := by
  refine ⟨[], (s.reverse.takeWhile isBlank).reverse, rfl, ?_, ?_⟩
  · rw [allBlank, List.all_reverse]
    exact allBlank_iff.mpr fun c hc => List.mem_takeWhile_imp hc
  · rw [List.nil_append, trimEnd, ← List.reverse_append, List.takeWhile_append_dropWhile,
      List.reverse_reverse]

theorem Padded.subset {core s : List Char} (h : Padded core s) : core ⊆ s := by
  obtain ⟨a, b, -, -, rfl⟩ := h
  exact fun c hc => List.mem_append_left b (List.mem_append_right a hc)

theorem Padded.not_mem {core s : List Char} (h : Padded core s) {c : Char}
    (hblank : isBlank c = false) (hc : c ∉ core) : c ∉ s := by
  obtain ⟨a, b, ha, hb, rfl⟩ := h
  rw [List.mem_append, List.mem_append, not_or, not_or]
  refine ⟨⟨fun hmem => ?_, hc⟩, fun hmem => ?_⟩
  · rw [allBlank_iff.mp ha c hmem] at hblank
    cases hblank
  · rw [allBlank_iff.mp hb c hmem] at hblank
    cases hblank

/-- Padding a text does not change what it is trimmed to. -/
theorem Padded.trim_eq {core s : List Char} (h : Padded core s) : trim s = trim core := by
  obtain ⟨a, b, ha, hb, rfl⟩ := h
  rw [trim, trim, List.append_assoc, trimStart_blank_append ha]
  cases hcore : allBlank core with
  | true =>
    rw [trimStart_blank_append hcore, trimStart_eq_nil.mpr hcore, trimStart_eq_nil.mpr hb]
  | false => rw [trimStart_append hcore, trimEnd_append_blank hb]

theorem trim_trimStart (s : List Char) : trim (trimStart s) = trim s :=
  (padded_trimStart s).trim_eq.symm

theorem trim_trimEnd (s : List Char) : trim (trimEnd s) = trim s :=
  (padded_trimEnd s).trim_eq.symm

theorem padded_trim (s : List Char) : Padded (trim s) s := by
  obtain ⟨a, b, ha, hb, hs⟩ := padded_trimStart s
  obtain ⟨a', b', ha', hb', hs'⟩ := padded_trimEnd (trimStart s)
  refine ⟨a ++ a', b' ++ b, ?_, ?_, ?_⟩
  · rw [allBlank, List.all_append, ← allBlank, ← allBlank, ha, ha', Bool.and_self]
  · rw [allBlank, List.all_append, ← allBlank, ← allBlank, hb, hb', Bool.and_self]
  · calc s = a ++ (a' ++ trim s ++ b') ++ b := by rw [trim, ← hs', ← hs]
      _ = a ++ a' ++ trim s ++ (b' ++ b) := by simp only [List.append_assoc]

theorem mem_of_mem_trim {c : Char} {s : List Char} (h : c ∈ trim s) : c ∈ s :=
  (padded_trim s).subset h

theorem allBlank_trim (s : List Char) : allBlank (trim s) = allBlank s := by
  obtain ⟨a, b, ha, hb, hs⟩ := padded_trim s
  calc allBlank (trim s) = (allBlank a && allBlank (trim s) && allBlank b) := by
        rw [ha, hb, Bool.true_and, Bool.and_true]
    _ = allBlank s := by
        rw [allBlank, allBlank, allBlank, ← List.all_append, ← List.all_append, ← hs, allBlank]

theorem trimStart_eq_self {s : List Char} (h : ∀ c, s.head? = some c → isBlank c = false) :
    trimStart s = s := by
  cases s with
  | nil => rfl
  | cons c s => rw [trimStart, List.dropWhile_cons_of_neg (by simp [h c rfl])]

theorem trimEnd_eq_self {s : List Char} (h : ∀ c, s.getLast? = some c → isBlank c = false) :
    trimEnd s = s := by
  have hreverse : trimStart s.reverse = s.reverse :=
    trimStart_eq_self fun c hc => h c (by rwa [List.head?_reverse] at hc)
  rw [trimEnd, ← trimStart, hreverse, List.reverse_reverse]

theorem trim_eq_self {s : List Char} (h : ∀ c ∈ s, isBlank c = false) : trim s = s := by
  rw [trim, trimStart_eq_self, trimEnd_eq_self]
  · exact fun c hc => h c (List.mem_of_getLast? hc)
  · exact fun c hc => h c (List.mem_of_mem_head? hc)

theorem trimEnd_trimEnd (s : List Char) : trimEnd (trimEnd s) = trimEnd s := by
  rw [trimEnd, trimEnd, List.reverse_reverse, List.dropWhile_idempotent]

/-! ## One character off an end -/

theorem dropInitial_of_not_mem {c : Char} {s : List Char} (h : c ∉ s) : dropInitial c s = s := by
  cases s with
  | nil => rfl
  | cons x s =>
    rw [List.mem_cons, not_or] at h
    rw [dropInitial, if_neg (Ne.symm h.1)]

theorem dropFinal_of_not_mem {c : Char} {s : List Char} (h : c ∉ s) : dropFinal c s = s := by
  rw [dropFinal, if_neg]
  exact fun hlast => h (List.mem_of_getLast? hlast)

/-! ## Lists -/

theorem splitAt_ne_nil (c : Char) (s : List Char) : splitAt c s ≠ [] := by
  fun_cases splitAt c s <;> exact List.cons_ne_nil _ _

theorem splitAt_of_not_mem {c : Char} {s : List Char} (h : c ∉ s) : splitAt c s = [s] := by
  induction s with
  | nil => rfl
  | cons x s ih =>
    rw [List.mem_cons, not_or] at h
    obtain ⟨hx, hs⟩ := h
    rw [splitAt, if_neg (Ne.symm hx), ih hs]

theorem splitAt_append_cons {c : Char} {s : List Char} (h : c ∉ s) (t : List Char) :
    splitAt c (s ++ c :: t) = s :: splitAt c t := by
  induction s with
  | nil => rw [List.nil_append, splitAt, if_pos rfl]
  | cons x s ih =>
    rw [List.mem_cons, not_or] at h
    obtain ⟨hx, hs⟩ := h
    rw [List.cons_append, splitAt, if_neg (Ne.symm hx), ih hs]

/-- The parts of a list are what was joined. -/
theorem splitAt_intercalate {c : Char} {parts : List (List Char)} (hne : parts ≠ [])
    (h : ∀ p ∈ parts, c ∉ p) : splitAt c ([c].intercalate parts) = parts := by
  induction parts with
  | nil => exact absurd rfl hne
  | cons p rest ih =>
    obtain ⟨hp, hrest⟩ := List.forall_mem_cons.mp h
    cases rest with
    | nil => rw [List.intercalate_singleton, splitAt_of_not_mem hp]
    | cons q rest =>
      rw [List.intercalate_cons_cons, List.append_assoc, List.singleton_append,
        splitAt_append_cons hp, ih (List.cons_ne_nil q rest) hrest]

/-- Blanks before a list belong to its first part. -/
theorem map_trim_splitAt_blank_append {c : Char} (hc : isBlank c = false) {a : List Char}
    (ha : allBlank a = true) (s : List Char) :
    (splitAt c (a ++ s)).map trim = (splitAt c s).map trim := by
  induction a with
  | nil => rfl
  | cons x a ih =>
    obtain ⟨hx, ha⟩ := List.forall_mem_cons.mp (allBlank_iff.mp ha)
    have hne : x ≠ c := by
      rintro rfl
      rw [hc] at hx
      cases hx
    rw [← ih (allBlank_iff.mpr ha), List.cons_append, splitAt, if_neg hne]
    cases hparts : splitAt c (a ++ s) with
    | nil => exact absurd hparts (splitAt_ne_nil c _)
    | cons p parts =>
      have hp : Padded p (x :: p) := ⟨[x], [], by simpa [allBlank] using hx, rfl, by simp⟩
      rw [List.map_cons, List.map_cons, hp.trim_eq]

/-- Blanks after a list belong to its last part. -/
theorem exists_splitAt_append_blank {c : Char} (hc : isBlank c = false) {b : List Char}
    (hb : allBlank b = true) (s : List Char) :
    ∃ parts last, splitAt c s = parts ++ [last] ∧
      splitAt c (s ++ b) = parts ++ [last ++ b] := by
  induction s with
  | nil =>
    refine ⟨[], [], rfl, splitAt_of_not_mem fun hmem => ?_⟩
    rw [allBlank_iff.mp hb c hmem] at hc
    cases hc
  | cons x s ih =>
    obtain ⟨parts, last, hs, hsb⟩ := ih
    rw [List.cons_append, splitAt, splitAt, hs, hsb]
    by_cases hx : x = c
    · exact ⟨[] :: parts, last, by rw [if_pos hx]; rfl, by rw [if_pos hx]; rfl⟩
    · rw [if_neg hx, if_neg hx]
      cases parts with
      | nil => exact ⟨[], x :: last, rfl, rfl⟩
      | cons p parts => exact ⟨(x :: p) :: parts, last, rfl, rfl⟩

/-- The trimmed parts of a trimmed list are those of the list. -/
theorem map_trim_splitAt_trim {c : Char} (hc : isBlank c = false) (s : List Char) :
    (splitAt c (trim s)).map trim = (splitAt c s).map trim := by
  obtain ⟨a, b, ha, hb, hs⟩ := padded_trim s
  obtain ⟨parts, last, hparts, hblank⟩ := exists_splitAt_append_blank hc hb (trim s)
  have hlast : Padded last (last ++ b) := ⟨[], b, rfl, hb, rfl⟩
  calc (splitAt c (trim s)).map trim = (splitAt c (trim s ++ b)).map trim := by
        rw [hparts, hblank, List.map_append, List.map_append, List.map_singleton,
          List.map_singleton, hlast.trim_eq]
    _ = (splitAt c (a ++ (trim s ++ b))).map trim :=
        (map_trim_splitAt_blank_append hc ha _).symm
    _ = (splitAt c s).map trim := by rw [← List.append_assoc, ← hs]

end Divergence.Text
