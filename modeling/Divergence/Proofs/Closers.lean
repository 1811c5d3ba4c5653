/-
# `Divergence.Proofs.Closers` — texts with closing parentheses missing

A group runs to the end of its text when it is never closed, so closing
parentheses may be left off at the end of a text (`dropClosers`).  A text around a
group, or a pair of texts with a colon between them, comes apart at the same place
then, and what is missing at its end is missing at the end of its last part
(`splitGroup_dropClosers`, `splitTopLevel_shortened`).

That the parts are the right ones takes texts that are `Whole`: they close the
parentheses they open, and show no colon of their own.
-/
import Divergence.Proofs.Blanks
import Divergence.Proofs.Parentheses
import Mathlib.Data.List.Basic

namespace Divergence.Text

/-! ## Missing parentheses -/

/-- The text without its last closing parentheses, `k` of them if there are as many at its
end.  Blanks among them go with them. -/
def dropClosers : (k : Nat) → List Char → List Char
  | 0, s => s
  | k + 1, s => dropClosers k (dropFinal ')' (trimEnd s))

/-- There is something in the text that no dropping of closing parentheses takes away. -/
def Solid (s : List Char) : Prop :=
  ∃ c ∈ s, isBlank c = false ∧ c ≠ ')'

variable {s t : List Char}

theorem Solid.allBlank_eq_false (h : Solid s) : allBlank s = false :=
  have ⟨c, hc, hblank, _⟩ := h
  allBlank_eq_false_iff.mpr ⟨c, hc, hblank⟩

theorem Solid.ne_nil (h : Solid s) : s ≠ [] :=
  have ⟨_, hc, _⟩ := h
  List.ne_nil_of_mem hc

theorem Solid.trimEnd (h : Solid s) : Solid (trimEnd s) := by
  obtain ⟨c, hc, hblank, hclose⟩ := h
  refine ⟨c, ?_, hblank, hclose⟩
  by_contra hnot
  exact (padded_trimEnd s).not_mem hblank hnot hc

theorem Solid.dropFinal (h : Solid s) : Solid (dropFinal ')' s) := by
  obtain ⟨c, hc, hblank, hclose⟩ := h
  refine ⟨c, ?_, hblank, hclose⟩
  unfold Text.dropFinal
  split
  · next hlast =>
    rw [← List.dropLast_append_getLast? ')' hlast, List.mem_append, List.mem_singleton] at hc
    exact hc.resolve_right hclose
  · exact hc

theorem Solid.dropClosers (h : Solid s) (k : Nat) : Solid (dropClosers k s) := by
  induction k generalizing s with
  | zero => exact h
  | succ k ih => exact ih h.trimEnd.dropFinal

theorem dropFinal_append {c : Char} (h : t ≠ []) (s : List Char) :
    dropFinal c (s ++ t) = s ++ dropFinal c t := by
  rw [dropFinal, dropFinal, List.getLast?_append_of_ne_nil s h,
    List.dropLast_append_of_ne_nil h]
  split <;> rfl

/-- What stands before the end of a text stays. -/
theorem dropClosers_append (h : Solid t) (k : Nat) (s : List Char) :
    dropClosers k (s ++ t) = s ++ dropClosers k t := by
  induction k generalizing t with
  | zero => rfl
  | succ k ih =>
    rw [dropClosers, dropClosers, trimEnd_append h.allBlank_eq_false,
      dropFinal_append h.trimEnd.ne_nil, ih h.trimEnd.dropFinal]

theorem dropFinal_prefix_self (c : Char) (s : List Char) : dropFinal c s <+: s := by
  unfold dropFinal
  split
  · exact List.dropLast_prefix s
  · exact List.prefix_rfl

theorem trimEnd_prefix_self (s : List Char) : trimEnd s <+: s := by
  rw [trimEnd, ← List.reverse_suffix, List.reverse_reverse]
  exact List.dropWhile_suffix isBlank

theorem dropClosers_prefix_self (k : Nat) (s : List Char) : dropClosers k s <+: s := by
  induction k generalizing s with
  | zero => exact List.prefix_rfl
  | succ k ih =>
    exact ((ih _).trans (dropFinal_prefix_self ')' _)).trans (trimEnd_prefix_self s)

/-- Where nothing is closed only blanks go. -/
theorem trimEnd_dropClosers (h : ')' ∉ s) (k : Nat) :
    Text.trimEnd (dropClosers k s) = Text.trimEnd s := by
  induction k generalizing s with
  | zero => rfl
  | succ k ih =>
    have hend : ')' ∉ Text.trimEnd s := fun hmem => h ((trimEnd_prefix_self s).subset hmem)
    rw [dropClosers, dropFinal_of_not_mem hend, ih hend, trimEnd_trimEnd]

theorem trim_dropClosers (h : ')' ∉ s) (k : Nat) : trim (dropClosers k s) = trim s := by
  rw [← trim_trimEnd, trimEnd_dropClosers h, trim_trimEnd]

/-- A character that is kept at an end is kept before one. -/
theorem dropClosers_cons {c : Char} (hblank : isBlank c = false) (hclose : c ≠ ')') (k : Nat)
    (s : List Char) : dropClosers k (c :: s) = c :: dropClosers k s := by
  induction k generalizing s with
  | zero => rfl
  | succ k ih =>
    have hfinal (t : List Char) : dropFinal ')' (c :: t) = c :: dropFinal ')' t := by
      cases t with
      | nil => rw [dropFinal_of_not_mem, dropFinal_of_not_mem] <;> simp [Ne.symm hclose]
      | cons d t => exact dropFinal_append (List.cons_ne_nil d t) [c]
    rw [dropClosers, dropClosers, trimEnd_cons hblank, hfinal, ih]

/-- A text, or what is left of it when closing parentheses are missing at its end. -/
def Shortened (s t : List Char) : Prop :=
  t = s ∨ ∃ k, t = Text.trimEnd (dropClosers k s)

theorem Shortened.trim_eq (h : Shortened s t) : ∃ k, trim t = trim (dropClosers k s) := by
  rcases h with rfl | ⟨k, rfl⟩
  · exact ⟨0, rfl⟩
  · exact ⟨k, trim_trimEnd _⟩

theorem Shortened.solid (h : Shortened s t) (hs : Solid s) : Solid t := by
  rcases h with rfl | ⟨k, rfl⟩
  · exact hs
  · exact (hs.dropClosers k).trimEnd

/-- A text, or what is left of it when fewer than `k` closing parentheses are missing at its
end. -/
def ShortenedBy (k : Nat) (s t : List Char) : Prop :=
  t = s ∨ ∃ j < k, t = Text.trimEnd (dropClosers j s)

theorem ShortenedBy.shortened {k : Nat} (h : ShortenedBy k s t) : Shortened s t :=
  h.imp_right fun ⟨j, _, ht⟩ => ⟨j, ht⟩

theorem ShortenedBy.trim_eq {k : Nat} (h : ShortenedBy k s t) :
    ∃ j ≤ k, trim t = trim (dropClosers j s) := by
  rcases h with rfl | ⟨j, hj, rfl⟩
  · exact ⟨0, Nat.zero_le k, rfl⟩
  · exact ⟨j, Nat.le_of_lt hj, trim_trimEnd _⟩

/-! ## Whole texts -/

/-- A text that can stand inside a group, and before or after a colon there. -/
structure Whole (s : List Char) : Prop where
  balanced : Balanced s
  /-- It has no colon outside of its own groups. -/
  uncut : splitAtDepth ':' 0 s = none
  solid : Solid s

theorem balanced_of_not_mem (h : ∀ d ∈ ['(', ')', ':'], d ∉ s) : Balanced s :=
  balanced_of_forall_ne fun c hc =>
    ⟨fun heq => h '(' (by decide) (heq ▸ hc), fun heq => h ')' (by decide) (heq ▸ hc)⟩

theorem whole_of_not_mem (h : ∀ d ∈ ['(', ')', ':'], d ∉ s) (hsolid : Solid s) : Whole s where
  balanced := balanced_of_not_mem h
  uncut := splitAtDepth_of_not_mem (h ':' (by decide)) 0
  solid := hsolid

theorem not_mem_of_allBlank (h : allBlank s = true) : ∀ d ∈ ['(', ')', ':'], d ∉ s := by
  intro d hd hmem
  have hnone : ∀ d ∈ ['(', ')', ':'], isBlank d = false := by simp [isBlank]
  have hblank := allBlank_iff.mp h d hmem
  rw [hnone d hd] at hblank
  cases hblank

theorem balanced_of_allBlank (h : allBlank s = true) : Balanced s :=
  balanced_of_not_mem (not_mem_of_allBlank h)

theorem Whole.append_blank (h : Whole s) (ht : allBlank t = true) : Whole (s ++ t) where
  balanced := h.balanced.append (balanced_of_allBlank ht)
  uncut := by
    rw [splitAtDepth_append h.balanced h.uncut,
      splitAtDepth_of_not_mem (not_mem_of_allBlank ht ':' (by decide)), Option.map_none]
  solid :=
    have ⟨c, hc, hsolid⟩ := h.solid
    ⟨c, List.mem_append_left t hc, hsolid⟩

theorem Whole.blank_append (h : Whole t) (hs : allBlank s = true) : Whole (s ++ t) where
  balanced := (balanced_of_allBlank hs).append h.balanced
  uncut := by
    rw [splitAtDepth_append (balanced_of_allBlank hs)
      (splitAtDepth_of_not_mem (not_mem_of_allBlank hs ':' (by decide)) 0), h.uncut,
      Option.map_none]
  solid :=
    have ⟨c, hc, hsolid⟩ := h.solid
    ⟨c, List.mem_append_right s hc, hsolid⟩

theorem Whole.padded {core : List Char} (h : Whole core) (hs : Padded core s) : Whole s := by
  obtain ⟨a, b, ha, hb, rfl⟩ := hs
  exact (h.blank_append ha).append_blank hb

theorem Whole.group (hs : Whole s) (ht : Balanced t) : Whole (s ++ '(' :: (t ++ [')'])) where
  balanced := hs.balanced.append ht.parenthesised
  uncut := splitAtDepth_group hs.balanced hs.uncut ht
  solid :=
    have ⟨c, hc, hsolid⟩ := hs.solid
    ⟨c, List.mem_append_left _ hc, hsolid⟩

/-- Two texts with a colon between them are balanced if they are. -/
theorem Whole.balanced_pair (hs : Whole s) (ht : Whole t) : Balanced (s ++ ':' :: t) := by
  refine hs.balanced.append ?_
  rw [Balanced, depthAfter?_other (by decide) (by decide)]
  exact ht.balanced

/-! ## Groups with missing parentheses -/

section Groups

variable {head inner : List Char}

/-- Blanks around a group and before its head go when it is trimmed. -/
theorem trim_group (hhead : allBlank head = false)
    (hs : Padded (head ++ '(' :: (inner ++ [')'])) s) :
    trim s = trimStart head ++ '(' :: (inner ++ [')']) := by
  rw [hs.trim_eq, trim, trimStart_append hhead]
  apply trimEnd_eq_self
  intro c hc
  rw [← List.cons_append, ← List.append_assoc, List.getLast?_concat] at hc
  cases hc
  decide

/-- The last parenthesis of a group is its own, so it is the first to be dropped; what else is
missing is missing inside. -/
theorem trim_dropClosers_group (hhead : allBlank head = false)
    (hs : Padded (head ++ '(' :: (inner ++ [')'])) s) (k : Nat) :
    trim (dropClosers (k + 1) s) =
      trimStart head ++ '(' :: Text.trimEnd (dropClosers k inner) := by
  obtain ⟨a, b, ha, hb, rfl⟩ := hs
  have hfinal : a ++ (head ++ '(' :: (inner ++ [')'])) =
      ((a ++ head) ++ '(' :: inner) ++ [')'] := by
    simp only [List.append_assoc, List.cons_append]
  have hclosed : Text.trimEnd ((a ++ head) ++ '(' :: inner ++ [')']) =
      (a ++ head) ++ '(' :: inner ++ [')'] := by
    apply trimEnd_eq_self
    intro c hc
    rw [List.getLast?_concat] at hc
    cases hc
    decide
  have hsolid : Solid ('(' :: inner) := ⟨'(', List.mem_cons_self, by decide, by decide⟩
  have hdrop : dropClosers (k + 1) (a ++ (head ++ '(' :: (inner ++ [')'])) ++ b) =
      a ++ (head ++ '(' :: dropClosers k inner) := by
    rw [dropClosers, trimEnd_append_blank hb, hfinal, hclosed, Text.dropFinal,
      List.getLast?_concat, if_pos rfl, List.dropLast_concat, dropClosers_append hsolid,
      dropClosers_cons (by decide) (by decide), List.append_assoc]
  have hblank : allBlank ('(' :: dropClosers k inner) = false :=
    allBlank_eq_false_iff.mpr ⟨'(', List.mem_cons_self, by decide⟩
  rw [hdrop, trim, trimStart_blank_append ha, trimStart_append hhead, trimEnd_append hblank,
    trimEnd_cons (by decide)]

/-- A text around a group is split at the group, also when closing parentheses are missing at
its end: they are then missing at the end of what is inside. -/
theorem splitGroup_shortenedBy (hopen : '(' ∉ head) (hhead : allBlank head = false)
    (hinner : Balanced inner) (hs : Padded (head ++ '(' :: (inner ++ [')'])) s) (k : Nat) :
    ∃ y, splitGroup (trim (dropClosers k s)) = .group ⟨trimStart head, y⟩ ∧
      ShortenedBy k inner y := by
  have hopen' : '(' ∉ trimStart head := fun hmem => hopen ((padded_trimStart head).subset hmem)
  cases k with
  | zero =>
    refine ⟨inner, ?_, .inl rfl⟩
    rw [dropClosers, trim_group hhead hs]
    exact splitGroup_closed hopen' hinner
  | succ k =>
    refine ⟨Text.trimEnd (dropClosers k inner), ?_, .inr ⟨k, Nat.lt_succ_self k, rfl⟩⟩
    rw [trim_dropClosers_group hhead hs]
    obtain ⟨depth, hdepth⟩ := exists_depthAfter?_of_start hinner
      ((trimEnd_prefix_self _).trans (dropClosers_prefix_self k inner))
    exact splitGroup_unclosed hopen' hdepth

theorem splitGroup_dropClosers (hopen : '(' ∉ head) (hhead : allBlank head = false)
    (hinner : Balanced inner) (hs : Padded (head ++ '(' :: (inner ++ [')'])) s) (k : Nat) :
    ∃ y, splitGroup (trim (dropClosers k s)) = .group ⟨trimStart head, y⟩ ∧
      Shortened inner y :=
  have ⟨y, hy, hshort⟩ := splitGroup_shortenedBy hopen hhead hinner hs k
  ⟨y, hy, hshort.shortened⟩

end Groups

/-- A pair is split at its colon, also when closing parentheses are missing at its end: they
are then missing at the end of the second text. -/
theorem splitTopLevel_shortenedBy (hs : Whole s) (ht : Solid t) {k : Nat} {y : List Char}
    (hy : ShortenedBy k (s ++ ':' :: t) y) :
    ∃ t', splitTopLevel ':' y = some (s, t') ∧ ShortenedBy k t t' := by
  rcases hy with rfl | ⟨j, hj, rfl⟩
  · exact ⟨t, splitTopLevel_append hs.balanced hs.uncut (by decide) (by decide) t, .inl rfl⟩
  · refine ⟨Text.trimEnd (dropClosers j t), ?_, .inr ⟨j, hj, rfl⟩⟩
    rw [List.append_cons, dropClosers_append ht,
      trimEnd_append (ht.dropClosers j).allBlank_eq_false, ← List.append_cons]
    exact splitTopLevel_append hs.balanced hs.uncut (by decide) (by decide) _

theorem splitTopLevel_shortened (hs : Whole s) (ht : Solid t) {y : List Char}
    (hy : Shortened (s ++ ':' :: t) y) :
    ∃ t', splitTopLevel ':' y = some (s, t') ∧ Shortened t t' := by
  obtain ⟨k, hk⟩ : ∃ k, ShortenedBy k (s ++ ':' :: t) y := by
    rcases hy with heq | ⟨k, heq⟩
    · exact ⟨0, .inl heq⟩
    · exact ⟨k + 1, .inr ⟨k, Nat.lt_succ_self k, heq⟩⟩
  obtain ⟨t', ht', hshort⟩ := splitTopLevel_shortenedBy hs ht hk
  exact ⟨t', ht', hshort.shortened⟩

end Divergence.Text
