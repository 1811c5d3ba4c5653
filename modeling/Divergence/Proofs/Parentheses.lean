/-
# `Divergence.Proofs.Parentheses` — scanning past what is nested

A scan for the end of a group, or for a delimiter at top level, passes over a
text in which every parenthesis that is closed was opened.  How deep the scan is
afterwards is all it takes along (`depthAfter?`), so what comes after such a
text is scanned as if it stood alone, at that depth.

A group that is never closed ends where the text does.

The scan for a delimiter passes over other texts as well, since it ignores closing
parentheses that close nothing (`runningDepth`).
-/
import Divergence.Text.Group

namespace Divergence.Text

/-! ## Depth -/

/-- The number of parentheses open after a text if `depth` are open before it; none if a
parenthesis is closed while none is open. -/
def depthAfter? : (depth : Nat) → List Char → Option Nat
  | depth, [] => some depth
  | depth, c :: rest =>
    if c = '(' then depthAfter? (depth + 1) rest
    else if c = ')' then
      match depth with
      | 0 => none
      | depth + 1 => depthAfter? depth rest
    else depthAfter? depth rest

/-- Every parenthesis is closed, and was opened before. -/
def Balanced (s : List Char) : Prop :=
  depthAfter? 0 s = some 0

variable {depth after : Nat} {c : Char} {s t : List Char}

theorem depthAfter?_open : depthAfter? depth ('(' :: s) = depthAfter? (depth + 1) s := by
  cases depth <;> rfl

theorem depthAfter?_close : depthAfter? (depth + 1) (')' :: s) = depthAfter? depth s :=
  rfl

theorem depthAfter?_other (hopen : c ≠ '(') (hclose : c ≠ ')') :
    depthAfter? depth (c :: s) = depthAfter? depth s := by
  cases depth <;> simp [depthAfter?, hopen, hclose]

theorem depthAfter?_append (depth : Nat) (s t : List Char) :
    depthAfter? depth (s ++ t) = (depthAfter? depth s).bind fun after => depthAfter? after t := by
  fun_induction depthAfter? depth s with
  | case1 depth => rfl
  | case2 depth rest ih => rw [List.cons_append, depthAfter?_open, ih]
  | case3 rest hopen => rfl
  | case4 rest depth hopen ih => exact ih
  | case5 depth c rest hopen hclose ih =>
    rw [List.cons_append, depthAfter?_other hopen hclose, ih]

theorem depthAfter?_add (h : depthAfter? depth s = some after) (k : Nat) :
    depthAfter? (depth + k) s = some (after + k) := by
  fun_induction depthAfter? depth s with
  | case1 depth =>
    cases h
    rfl
  | case2 depth rest ih =>
    rw [depthAfter?_open, Nat.add_right_comm]
    exact ih h
  | case3 rest hopen => cases h
  | case4 rest depth hopen ih =>
    rw [Nat.succ_add, depthAfter?_close]
    exact ih h
  | case5 depth c rest hopen hclose ih =>
    rw [depthAfter?_other hopen hclose]
    exact ih h

theorem depthAfter?_of_forall_ne (h : ∀ c ∈ s, c ≠ '(' ∧ c ≠ ')') (depth : Nat) :
    depthAfter? depth s = some depth := by
  induction s with
  | nil => rfl
  | cons c rest ih =>
    obtain ⟨⟨hopen, hclose⟩, hrest⟩ := List.forall_mem_cons.mp h
    rw [depthAfter?_other hopen hclose, ih hrest]

/-- The start of a text closes nothing that the text does not. -/
theorem exists_depthAfter?_of_start (h : depthAfter? depth t = some after) (hst : s <+: t) :
    ∃ between, depthAfter? depth s = some between := by
  obtain ⟨rest, rfl⟩ := hst
  rw [depthAfter?_append, Option.bind_eq_some_iff] at h
  obtain ⟨between, hbetween, -⟩ := h
  exact ⟨between, hbetween⟩

theorem Balanced.append (hs : Balanced s) (ht : Balanced t) : Balanced (s ++ t) := by
  rw [Balanced, depthAfter?_append, hs]
  exact ht

theorem Balanced.parenthesised (hs : Balanced s) : Balanced ('(' :: (s ++ [')'])) := by
  rw [Balanced, depthAfter?_open, depthAfter?_append, depthAfter?_add hs 1]
  rfl

theorem balanced_of_forall_ne (h : ∀ c ∈ s, c ≠ '(' ∧ c ≠ ')') : Balanced s :=
  depthAfter?_of_forall_ne h 0

/-! ## Groups -/

theorem untilClose_open :
    untilClose depth ('(' :: s) =
      ('(' :: (untilClose (depth + 1) s).1, (untilClose (depth + 1) s).2) := by
  cases depth <;> rfl

theorem untilClose_close :
    untilClose (depth + 1) (')' :: s) = (')' :: (untilClose depth s).1, (untilClose depth s).2) :=
  rfl

theorem untilClose_other (hopen : c ≠ '(') (hclose : c ≠ ')') :
    untilClose depth (c :: s) = (c :: (untilClose depth s).1, (untilClose depth s).2) := by
  cases depth <;> simp [untilClose, hopen, hclose]

/-- The scan for the end of a group goes past a text that closes nothing of it. -/
theorem untilClose_append (h : depthAfter? depth s = some after) (t : List Char) :
    untilClose depth (s ++ t) = (s ++ (untilClose after t).1, (untilClose after t).2) := by
  fun_induction depthAfter? depth s with
  | case1 depth =>
    cases h
    rfl
  | case2 depth rest ih => rw [List.cons_append, untilClose_open, ih h, List.cons_append]
  | case3 rest hopen => cases h
  | case4 rest depth hopen ih => rw [List.cons_append, untilClose_close, ih h, List.cons_append]
  | case5 depth c rest hopen hclose ih =>
    rw [List.cons_append, untilClose_other hopen hclose, ih h, List.cons_append]

theorem untilClose_eq_none (h : depthAfter? depth s = some after) :
    untilClose depth s = (s, none) := by
  have happend := untilClose_append h []
  rwa [List.append_nil, untilClose, List.append_nil] at happend

/-- A text that closes too much has a first parenthesis that does. -/
theorem exists_append_close (h : depthAfter? depth s = none) :
    ∃ inner rest, s = inner ++ ')' :: rest ∧ depthAfter? depth inner = some 0 := by
  fun_induction depthAfter? depth s with
  | case1 depth => cases h
  | case2 depth rest ih =>
    obtain ⟨inner, after, rfl, hinner⟩ := ih h
    exact ⟨'(' :: inner, after, rfl, by rwa [depthAfter?_open]⟩
  | case3 rest hopen => exact ⟨[], rest, rfl, rfl⟩
  | case4 rest depth hopen ih =>
    obtain ⟨inner, after, rfl, hinner⟩ := ih h
    exact ⟨')' :: inner, after, rfl, by rwa [depthAfter?_close]⟩
  | case5 depth c rest hopen hclose ih =>
    obtain ⟨inner, after, rfl, hinner⟩ := ih h
    exact ⟨c :: inner, after, rfl, by rwa [depthAfter?_other hopen hclose]⟩

/-- That is where the scan for the end of a group stops. -/
theorem untilClose_append_close (h : depthAfter? depth s = some 0) (t : List Char) :
    untilClose depth (s ++ ')' :: t) = (s, some t) := by
  rw [untilClose_append h]
  simp [untilClose]

theorem forall_ne_of_not_mem (hs : '(' ∉ s) : ∀ c ∈ s, decide (c ≠ '(') = true := by
  intro c hc
  refine decide_eq_true ?_
  rintro rfl
  exact hs hc

theorem beforeOpen_append (hs : '(' ∉ s) (t : List Char) : beforeOpen (s ++ '(' :: t) = s := by
  rw [beforeOpen, List.takeWhile_append_of_pos (forall_ne_of_not_mem hs)]
  simp

theorem fromOpen_append (hs : '(' ∉ s) (t : List Char) :
    fromOpen (s ++ '(' :: t) = '(' :: t := by
  rw [fromOpen, List.dropWhile_append_of_pos (forall_ne_of_not_mem hs)]
  simp

theorem splitGroup_of_untilClose (hs : '(' ∉ s) {inner : List Char}
    (ht : untilClose 0 t = (inner, none) ∨ untilClose 0 t = (inner, some [])) :
    splitGroup (s ++ '(' :: t) = .group ⟨s, inner⟩ := by
  unfold splitGroup
  rcases ht with ht | ht
  · simp only [fromOpen_append hs, beforeOpen_append hs, ht]
  · simp only [fromOpen_append hs, beforeOpen_append hs, ht]

theorem splitGroup_closed (hs : '(' ∉ s) (ht : Balanced t) :
    splitGroup (s ++ '(' :: (t ++ [')'])) = .group ⟨s, t⟩ := by
  apply splitGroup_of_untilClose hs
  right
  rw [untilClose_append ht]
  simp [untilClose]

/-- A group has to end the text if it is closed. -/
theorem splitGroup_textAfterClose (hs : '(' ∉ s) (ht : Balanced t) {rest : List Char}
    (hrest : rest ≠ []) : splitGroup (s ++ '(' :: (t ++ ')' :: rest)) = .textAfterClose := by
  obtain ⟨c, rest, rfl⟩ := List.exists_cons_of_ne_nil hrest
  simp only [splitGroup, fromOpen_append hs, untilClose_append_close ht]

/-- A group that is not closed ends with the text. -/
theorem splitGroup_unclosed (hs : '(' ∉ s) (ht : depthAfter? 0 t = some after) :
    splitGroup (s ++ '(' :: t) = .group ⟨s, t⟩ :=
  splitGroup_of_untilClose hs (.inl (untilClose_eq_none ht))

/-! ## Delimiters -/

variable {delimiter : Char}

/-- The number of parentheses open after a text if `depth` are open before it, where closing
ones are ignored while none is open. -/
def runningDepth : (depth : Nat) → List Char → Nat
  | depth, [] => depth
  | depth, c :: rest =>
    if c = '(' then runningDepth (depth + 1) rest
    else if c = ')' then runningDepth (depth - 1) rest
    else runningDepth depth rest

theorem runningDepth_of_depthAfter? (h : depthAfter? depth s = some after) :
    runningDepth depth s = after := by
  fun_induction depthAfter? depth s with
  | case1 depth => exact Option.some.inj h
  | case2 depth rest ih => rw [runningDepth, if_pos rfl, ih h]
  | case3 rest hopen => cases h
  | case4 rest depth hopen ih =>
    rw [runningDepth, if_neg hopen, if_pos rfl, Nat.succ_sub_one, ih h]
  | case5 depth c rest hopen hclose ih =>
    rw [runningDepth, if_neg hopen, if_neg hclose, ih h]

/-- The scan for a delimiter goes past a text that has none at top level. -/
theorem splitAtDepth_append_of_eq_none (hs : splitAtDepth delimiter depth s = none)
    (t : List Char) :
    splitAtDepth delimiter depth (s ++ t) =
      (splitAtDepth delimiter (runningDepth depth s) t).map fun p => (s ++ p.1, p.2) := by
  fun_induction splitAtDepth delimiter depth s with
  | case1 depth => simp [runningDepth]
  | case2 depth rest ih =>
    rw [List.cons_append, splitAtDepth, runningDepth, if_pos rfl, if_pos rfl,
      ih (Option.map_eq_none_iff.mp hs), Option.map_map]
    rfl
  | case3 depth rest hopen ih =>
    rw [List.cons_append, splitAtDepth, runningDepth, if_neg hopen, if_neg hopen, if_pos rfl,
      if_pos rfl, ih (Option.map_eq_none_iff.mp hs), Option.map_map]
    rfl
  | case4 depth c rest hopen hclose hcut => cases hs
  | case5 depth c rest hopen hclose hcut ih =>
    rw [List.cons_append, splitAtDepth, runningDepth, if_neg hopen, if_neg hopen, if_neg hclose,
      if_neg hclose, if_neg hcut, ih (Option.map_eq_none_iff.mp hs), Option.map_map]
    rfl

theorem splitAtDepth_append_cons (hs : splitAtDepth delimiter depth s = none)
    (hzero : runningDepth depth s = 0) (hopen : delimiter ≠ '(') (hclose : delimiter ≠ ')')
    (t : List Char) : splitAtDepth delimiter depth (s ++ delimiter :: t) = some (s, t) := by
  rw [splitAtDepth_append_of_eq_none hs, hzero, splitAtDepth, if_neg hopen, if_neg hclose]
  simp

theorem splitAtDepth_append (hdepth : depthAfter? depth s = some after)
    (hs : splitAtDepth delimiter depth s = none) (t : List Char) :
    splitAtDepth delimiter depth (s ++ t) =
      (splitAtDepth delimiter after t).map fun p => (s ++ p.1, p.2) := by
  rw [splitAtDepth_append_of_eq_none hs, runningDepth_of_depthAfter? hdepth]

/-- A text is split at a delimiter at top level, before which there is none. -/
theorem splitAtDepth_cut {a b : List Char} (h : splitAtDepth delimiter depth s = some (a, b)) :
    s = a ++ delimiter :: b ∧ runningDepth depth a = 0 ∧
      splitAtDepth delimiter depth a = none ∧ delimiter ≠ '(' ∧ delimiter ≠ ')' := by
  fun_induction splitAtDepth delimiter depth s generalizing a with
  | case1 depth => cases h
  | case2 depth rest ih =>
    obtain ⟨⟨a', b'⟩, hrest, heq⟩ := Option.map_eq_some_iff.mp h
    cases heq
    obtain ⟨rfl, hzero, hnone, hdelimiter⟩ := ih hrest
    refine ⟨rfl, by rwa [runningDepth, if_pos rfl], ?_, hdelimiter⟩
    rw [splitAtDepth, if_pos rfl, hnone, Option.map_none]
  | case3 depth rest hopen ih =>
    obtain ⟨⟨a', b'⟩, hrest, heq⟩ := Option.map_eq_some_iff.mp h
    cases heq
    obtain ⟨rfl, hzero, hnone, hdelimiter⟩ := ih hrest
    refine ⟨rfl, by rwa [runningDepth, if_neg hopen, if_pos rfl], ?_, hdelimiter⟩
    rw [splitAtDepth, if_neg hopen, if_pos rfl, hnone, Option.map_none]
  | case4 depth c rest hopen hclose hcut =>
    cases h
    simp only [Bool.and_eq_true, decide_eq_true_eq] at hcut
    obtain ⟨rfl, rfl⟩ := hcut
    exact ⟨rfl, rfl, rfl, hopen, hclose⟩
  | case5 depth c rest hopen hclose hcut ih =>
    obtain ⟨⟨a', b'⟩, hrest, heq⟩ := Option.map_eq_some_iff.mp h
    cases heq
    obtain ⟨rfl, hzero, hnone, hdelimiter⟩ := ih hrest
    refine ⟨rfl, by rwa [runningDepth, if_neg hopen, if_neg hclose], ?_, hdelimiter⟩
    rw [splitAtDepth, if_neg hopen, if_neg hclose, if_neg hcut, hnone, Option.map_none]

theorem splitAtDepth_of_not_mem (h : delimiter ∉ s) (depth : Nat) :
    splitAtDepth delimiter depth s = none := by
  fun_induction splitAtDepth delimiter depth s with
  | case1 depth => rfl
  | case2 depth rest ih => simp [ih (List.not_mem_of_not_mem_cons h)]
  | case3 depth rest hopen ih => simp [ih (List.not_mem_of_not_mem_cons h)]
  | case4 depth c rest hopen hclose heq =>
    simp at heq
    exact absurd (heq.1 ▸ List.mem_cons_self) h
  | case5 depth c rest hopen hclose hne ih => simp [ih (List.not_mem_of_not_mem_cons h)]

/-- What is before the delimiter that a text is split at is balanced and has none at top
level. -/
theorem splitAtDepth_eq_some {a b : List Char} (hdepth : depthAfter? depth s = some after)
    (h : splitAtDepth delimiter depth s = some (a, b)) :
    s = a ++ delimiter :: b ∧ depthAfter? depth a = some 0 ∧
      splitAtDepth delimiter depth a = none ∧ depthAfter? 0 b = some after := by
  obtain ⟨rfl, hzero, hnone, hopen, hclose⟩ := splitAtDepth_cut h
  obtain ⟨between, ha⟩ := exists_depthAfter?_of_start hdepth (List.prefix_append a _)
  obtain rfl : between = 0 := (runningDepth_of_depthAfter? ha).symm.trans hzero
  rw [depthAfter?_append, ha, Option.bind_some, depthAfter?_other hopen hclose] at hdepth
  exact ⟨rfl, ha, hnone, hdepth⟩

/-- Nothing inside a parenthesis that stays open is at top level. -/
theorem splitAtDepth_succ_eq_none (h : depthAfter? depth s = some after) :
    splitAtDepth delimiter (depth + 1) s = none := by
  fun_induction depthAfter? depth s with
  | case1 depth => rfl
  | case2 depth rest ih => rw [splitAtDepth, if_pos rfl, ih h, Option.map_none]
  | case3 rest hopen => cases h
  | case4 rest depth hopen ih =>
    rw [splitAtDepth, if_neg hopen, if_pos rfl, Nat.add_sub_cancel, ih h, Option.map_none]
  | case5 depth c rest hopen hclose ih =>
    rw [splitAtDepth, if_neg hopen, if_neg hclose, if_neg (by simp), ih h, Option.map_none]

/-- Nor is anything inside a group. -/
theorem splitAtDepth_group (hs : Balanced s) (hcut : splitAtDepth delimiter 0 s = none)
    (ht : Balanced t) :
    splitAtDepth delimiter 0 (s ++ '(' :: (t ++ [')'])) = none := by
  rw [splitAtDepth_append hs hcut, Option.map_eq_none_iff, splitAtDepth, if_pos rfl,
    Option.map_eq_none_iff,
    splitAtDepth_append (depthAfter?_add ht 1) (splitAtDepth_succ_eq_none ht)]
  simp [splitAtDepth]

theorem splitTopLevel_append (hs : Balanced s) (hcut : splitAtDepth delimiter 0 s = none)
    (hopen : delimiter ≠ '(') (hclose : delimiter ≠ ')') (t : List Char) :
    splitTopLevel delimiter (s ++ delimiter :: t) = some (s, t) :=
  splitAtDepth_append_cons hcut (runningDepth_of_depthAfter? hs) hopen hclose t

end Divergence.Text
