/-
# `Divergence.Proofs.Scans` — where a text is split, by counting parentheses

What the scans for a group and for a delimiter find is said here without them, by
counting parentheses.

Nothing in a text is closed that it did not open if no start of it has more closing
parentheses than opening ones (`ClosesNoMore`).  If it has as many of both, each of
them has its partner (`Matched`).  A text is then one of four things at its first
opening parenthesis (`Splits`), and `splitGroup` tells which.

At top level closing parentheses that close nothing are ignored: the depth that a
scan keeps for it (`runningDepth`) stays at zero there.  `splitTopLevel` cuts a text
at the first delimiter before which that depth is zero.

A scan that keeps offsets instead of parts, and a depth that must not fall below zero,
goes the same way and never fails (`checkedSplitGroup?`, `checkedSplitTopLevel?`).
-/
import Divergence.Proofs.Offsets
import Divergence.Proofs.Parentheses
import Mathlib.Data.List.TakeWhile

namespace Divergence.Text

variable {depth after : Nat} {c : Char} {s : List Char}

/-! ## Counting -/

/-- No start of the text has more closing parentheses than opening ones. -/
def ClosesNoMore (s : List Char) : Prop :=
  ∀ p, p <+: s → p.count ')' ≤ p.count '('

/-- Every parenthesis of the text has a partner in it. -/
def Matched (s : List Char) : Prop :=
  ClosesNoMore s ∧ s.count '(' = s.count ')'

theorem forall_start_cons {P : List Char → Prop} :
    (∀ p, p <+: c :: s → P p) ↔ P [] ∧ ∀ p, p <+: s → P (c :: p) := by
  constructor
  · intro h
    exact ⟨h [] List.nil_prefix, fun p hp => h (c :: p) ((List.prefix_cons_inj c).mpr hp)⟩
  · rintro ⟨hnil, hcons⟩ p hp
    rcases List.prefix_cons_iff.mp hp with rfl | ⟨p', rfl, hp'⟩
    · exact hnil
    · exact hcons p' hp'

/-- The depth after a text is the one before it, with what is opened and without what is closed,
as long as no start of the text closes more than is open. -/
theorem depthAfter?_eq_some_iff :
    depthAfter? depth s = some after ↔
      (∀ p, p <+: s → p.count ')' ≤ depth + p.count '(') ∧
        after + s.count ')' = depth + s.count '(' := by
  fun_induction depthAfter? depth s with
  | case1 depth => simp [eq_comm]
  | case2 depth rest ih =>
    rw [ih, forall_start_cons]
    simp [Nat.add_assoc, Nat.add_comm 1]
  | case3 rest hopen =>
    rw [forall_start_cons]
    simp only [reduceCtorEq, false_iff]
    rintro ⟨⟨-, hstart⟩, -⟩
    simpa using hstart [] List.nil_prefix
  | case4 rest depth hopen ih =>
    rw [ih, forall_start_cons]
    simp [Nat.add_right_comm _ 1, ← Nat.add_assoc]
  | case5 depth c rest hopen hclose ih =>
    rw [ih, forall_start_cons]
    simp [hopen, hclose]

theorem exists_depthAfter?_iff : (∃ after, depthAfter? 0 s = some after) ↔ ClosesNoMore s := by
  simp only [depthAfter?_eq_some_iff, Nat.zero_add, ClosesNoMore]
  constructor
  · rintro ⟨after, hstart, -⟩
    exact hstart
  · intro hstart
    exact ⟨s.count '(' - s.count ')', hstart, Nat.sub_add_cancel (hstart s List.prefix_rfl)⟩

theorem balanced_iff_matched : Balanced s ↔ Matched s := by
  simp only [Balanced, depthAfter?_eq_some_iff, Nat.zero_add]
  exact and_congr_right fun _ => eq_comm

/-! ## Groups -/

/-- What a text is at its first opening parenthesis. -/
inductive Splits (s : List Char) : GroupScan → Prop
  /-- It has none. -/
  | plain : '(' ∉ s → Splits s .plain
  /-- The partner of the parenthesis ends the text. -/
  | closed {head inner : List Char} : '(' ∉ head → s = head ++ '(' :: (inner ++ [')']) →
      Matched inner → Splits s (.group ⟨head, inner⟩)
  /-- The parenthesis has no partner. -/
  | unclosed {head inner : List Char} : '(' ∉ head → s = head ++ '(' :: inner → ClosesNoMore inner →
      Splits s (.group ⟨head, inner⟩)
  /-- Something comes after the partner of the parenthesis. -/
  | textAfterClose {head inner rest : List Char} : '(' ∉ head →
      s = head ++ '(' :: (inner ++ ')' :: rest) → Matched inner → rest ≠ [] →
      Splits s .textAfterClose

theorem splitGroup_plain (h : '(' ∉ s) : splitGroup s = .plain := by
  have hnone : fromOpen s = [] := by
    rw [fromOpen, List.dropWhile_eq_nil_iff]
    exact forall_ne_of_not_mem h
  rw [splitGroup, hnone]

/-- Only one of the four can be. -/
theorem Splits.splitGroup_eq {r : GroupScan} (h : Splits s r) : splitGroup s = r := by
  cases h with
  | plain hs => exact splitGroup_plain hs
  | closed hhead hs hinner => exact hs ▸ splitGroup_closed hhead (balanced_iff_matched.mpr hinner)
  | unclosed hhead hs hinner =>
    obtain ⟨after, hafter⟩ := exists_depthAfter?_iff.mpr hinner
    exact hs ▸ splitGroup_unclosed hhead hafter
  | textAfterClose hhead hs hinner hrest =>
    exact hs ▸ splitGroup_textAfterClose hhead (balanced_iff_matched.mpr hinner) hrest

/-- One of the four always is. -/
theorem splits_splitGroup (s : List Char) : Splits s (splitGroup s) := by
  suffices h : ∃ r, Splits s r by
    obtain ⟨r, hr⟩ := h
    exact hr.splitGroup_eq.symm ▸ hr
  by_cases hopen : '(' ∈ s
  · obtain ⟨head, body, rfl, hhead⟩ := List.eq_append_cons_of_mem hopen
    cases hdepth : depthAfter? 0 body with
    | some after => exact ⟨_, .unclosed hhead rfl (exists_depthAfter?_iff.mp ⟨after, hdepth⟩)⟩
    | none =>
      obtain ⟨inner, rest, rfl, hinner⟩ := exists_append_close hdepth
      have hmatched : Matched inner := balanced_iff_matched.mp hinner
      cases rest with
      | nil => exact ⟨_, .closed hhead rfl hmatched⟩
      | cons c rest => exact ⟨_, .textAfterClose hhead rfl hmatched (List.cons_ne_nil c rest)⟩
  · exact ⟨_, .plain hopen⟩

/-! ## The scan for a group with its checks -/

/-- The offset of the parenthesis that closes the last open one, if some does.  The scan fails
if one is closed while none is open. -/
def closeOffset? : (depth offset : Nat) → List Char → Option (Option Nat)
  | _, _, [] => some none
  | depth, offset, c :: rest =>
    if c = '(' then closeOffset? (depth + 1) (offset + c.utf8Size) rest
    else if c = ')' then
      match depth with
      | 0 => none
      | 1 => some (some offset)
      | depth + 2 => closeOffset? (depth + 1) (offset + c.utf8Size) rest
    else closeOffset? depth (offset + c.utf8Size) rest

/-- `splitGroup` by offsets, where every cut is checked. -/
def checkedSplitGroup? (s : List Char) : Option GroupScan :=
  match offsetOf? '(' s with
  | none => some .plain
  | some start => do
    let (head, body) ← cut? start s
    match ← closeOffset? 0 0 body with
    | none =>
      let (_, inner) ← cut? (start + 1) s
      return .group ⟨head, inner⟩
    | some length =>
      if start + length + 1 ≠ byteSize s then return .textAfterClose
      else return .group ⟨head, ← slice? (start + 1) (start + length) s⟩

theorem closeOffset?_open {offset : Nat} :
    closeOffset? depth offset ('(' :: s) = closeOffset? (depth + 1) (offset + 1) s := by
  cases depth <;> rfl

theorem closeOffset?_close {offset : Nat} :
    closeOffset? (depth + 2) offset (')' :: s) = closeOffset? (depth + 1) (offset + 1) s :=
  rfl

theorem closeOffset?_other {offset : Nat} (hopen : c ≠ '(') (hclose : c ≠ ')') :
    closeOffset? depth offset (c :: s) = closeOffset? depth (offset + c.utf8Size) s := by
  cases depth <;> simp [closeOffset?, hopen, hclose]

/-- The scan goes past a text that closes nothing that was open before. -/
theorem closeOffset?_append (h : depthAfter? depth s = some after) (offset : Nat)
    (t : List Char) :
    closeOffset? (depth + 1) offset (s ++ t) =
      closeOffset? (after + 1) (offset + byteSize s) t := by
  fun_induction depthAfter? depth s generalizing offset with
  | case1 depth =>
    cases h
    rfl
  | case2 depth rest ih =>
    rw [List.cons_append, closeOffset?_open, ih h, byteSize, ← Nat.add_assoc]
    rfl
  | case3 rest hopen => cases h
  | case4 rest depth hopen ih =>
    rw [List.cons_append, closeOffset?_close, ih h, byteSize, ← Nat.add_assoc]
    rfl
  | case5 depth c rest hopen hclose ih =>
    rw [List.cons_append, closeOffset?_other hopen hclose, ih h, byteSize, Nat.add_assoc]

/-- The scan ends at the partner of the first parenthesis. -/
theorem closeOffset?_closed {inner : List Char} (h : Balanced inner) (rest : List Char) :
    closeOffset? 0 0 ('(' :: (inner ++ ')' :: rest)) = some (some (1 + byteSize inner)) := by
  rw [closeOffset?_open, closeOffset?_append h]
  rfl

/-- Without a partner it ends with the text. -/
theorem closeOffset?_unclosed {inner : List Char} (h : depthAfter? 0 inner = some after) :
    closeOffset? 0 0 ('(' :: inner) = some none := by
  have hscan := closeOffset?_append h 1 []
  rw [List.append_nil] at hscan
  rw [closeOffset?_open]
  exact hscan

theorem slice?_group (head inner rest : List Char) :
    slice? (byteSize head + 1) (byteSize head + (1 + byteSize inner))
      (head ++ '(' :: (inner ++ rest)) = some inner := by
  have hslice := slice?_append (head ++ ['(']) inner rest
  have hparen : byteSize ['('] = 1 := rfl
  rwa [byteSize_append, hparen, Nat.add_assoc (byteSize head), List.append_assoc,
    List.append_assoc, List.singleton_append] at hslice

theorem byteSize_group (head inner rest : List Char) :
    byteSize (head ++ '(' :: (inner ++ ')' :: rest)) =
      byteSize head + (1 + byteSize inner) + 1 + byteSize rest := by
  have hopen : '('.utf8Size = 1 := rfl
  have hclose : ')'.utf8Size = 1 := rfl
  simp only [byteSize_append, byteSize, hopen, hclose, Nat.add_assoc]

/-- What the scan comes to once the first parenthesis is found. -/
theorem checkedSplitGroup?_append {head : List Char} (hhead : '(' ∉ head) (body : List Char) :
    checkedSplitGroup? (head ++ '(' :: body) =
      (closeOffset? 0 0 ('(' :: body)).bind fun
        | none => some (.group ⟨head, body⟩)
        | some length =>
          if byteSize head + length + 1 ≠ byteSize (head ++ '(' :: body) then
            some .textAfterClose
          else
            (slice? (byteSize head + 1) (byteSize head + length) (head ++ '(' :: body)).map
              fun inner => .group ⟨head, inner⟩ := by
  have hbody : cut? (byteSize head + 1) (head ++ '(' :: body) = some (head ++ ['('], body) :=
    cut?_eq_some.mpr ⟨by simp, byteSize_append head ['(']⟩
  simp only [checkedSplitGroup?, offsetOf?_append_cons hhead, cut?_append, hbody,
    Option.bind_eq_bind, Option.bind_some]
  congr 1
  funext close
  cases close with
  | none => rfl
  | some length =>
    dsimp only
    split
    · rfl
    · cases slice? _ _ _ <;> rfl

/-- The scan by offsets never fails, and finds what `splitGroup` finds. -/
theorem checkedSplitGroup?_eq (s : List Char) : checkedSplitGroup? s = some (splitGroup s) := by
  have hsplits := splits_splitGroup s
  generalize splitGroup s = r at hsplits
  cases hsplits with
  | plain hs => rw [checkedSplitGroup?, offsetOf?_of_not_mem hs]
  | @closed head inner hhead hs hinner =>
    have hclose := closeOffset?_closed (balanced_iff_matched.mpr hinner) []
    have hend : byteSize head + (1 + byteSize inner) + 1 =
        byteSize (head ++ '(' :: (inner ++ [')'])) := (byteSize_group head inner []).symm
    rw [hs, checkedSplitGroup?_append hhead, hclose, Option.bind_some]
    dsimp only
    rw [if_neg (not_not.mpr hend), slice?_group, Option.map_some]
  | @unclosed head inner hhead hs hinner =>
    obtain ⟨after, hafter⟩ := exists_depthAfter?_iff.mpr hinner
    rw [hs, checkedSplitGroup?_append hhead, closeOffset?_unclosed hafter, Option.bind_some]
  | @textAfterClose head inner rest hhead hs hinner hrest =>
    have hclose := closeOffset?_closed (balanced_iff_matched.mpr hinner) rest
    have hend : byteSize head + (1 + byteSize inner) + 1 ≠
        byteSize (head ++ '(' :: (inner ++ ')' :: rest)) := by
      have hpos := byteSize_pos hrest
      rw [byteSize_group]
      omega
    rw [hs, checkedSplitGroup?_append hhead, hclose, Option.bind_some]
    dsimp only
    rw [if_pos hend]

/-- A text is exactly one of four things at its first opening parenthesis, and `splitGroup`
tells which.  Its depth never falls below zero, and all its cuts are between characters. -/
theorem splitGroup_exact (s : List Char) :
    checkedSplitGroup? s = some (splitGroup s) ∧
    (∀ r, splitGroup s = r ↔ Splits s r) ∧
    ∃! r, Splits s r := by
  have hiff : ∀ r, splitGroup s = r ↔ Splits s r := by
    intro r
    constructor
    · rintro rfl
      exact splits_splitGroup s
    · exact Splits.splitGroup_eq
  refine ⟨checkedSplitGroup?_eq s, hiff, splitGroup s, splits_splitGroup s, ?_⟩
  exact fun r hr => hr.splitGroup_eq.symm

/-! ## Delimiters -/

variable {delimiter : Char}

/-- A text is not split if every delimiter in it is inside of parentheses. -/
theorem splitAtDepth_eq_none_iff (hopen : delimiter ≠ '(') (hclose : delimiter ≠ ')') :
    splitAtDepth delimiter depth s = none ↔
      ∀ a b, s = a ++ delimiter :: b → runningDepth depth a ≠ 0 := by
  constructor
  · rintro hnone a b rfl hzero
    cases ha : splitAtDepth delimiter depth a with
    | none =>
      rw [splitAtDepth_append_cons ha hzero hopen hclose] at hnone
      cases hnone
    | some parts =>
      -- then an earlier delimiter is at top level
      obtain ⟨hsplit, hfirst, hbefore, -⟩ := splitAtDepth_cut ha
      rw [hsplit, List.append_assoc, List.cons_append,
        splitAtDepth_append_cons hbefore hfirst hopen hclose] at hnone
      cases hnone
  · intro hinside
    cases hsplit : splitAtDepth delimiter depth s with
    | none => rfl
    | some parts =>
      obtain ⟨hs, hzero, -⟩ := splitAtDepth_cut hsplit
      exact absurd hzero (hinside _ _ hs)

/-- A part before one delimiter that is shorter than the part before another ends at a delimiter
of the longer part. -/
theorem exists_of_length_lt {a b a' b' : List Char}
    (h : a ++ delimiter :: b = a' ++ delimiter :: b') (hlt : a'.length < a.length) :
    ∃ between, a = a' ++ delimiter :: between := by
  rcases List.append_eq_append_iff.mp h with ⟨x, ha', -⟩ | ⟨x, ha, hx⟩
  · rw [ha', List.length_append] at hlt
    omega
  · cases x with
    | nil =>
      rw [ha, List.append_nil] at hlt
      exact absurd hlt (Nat.lt_irrefl _)
    | cons y x =>
      obtain rfl : delimiter = y := (List.cons.inj hx).1
      exact ⟨x, ha⟩

/-- A text is split at the first delimiter at top level. -/
theorem splitTopLevel_eq_some_iff {a b : List Char} (hopen : delimiter ≠ '(')
    (hclose : delimiter ≠ ')') :
    splitTopLevel delimiter s = some (a, b) ↔
      s = a ++ delimiter :: b ∧ runningDepth 0 a = 0 ∧
        ∀ a' b', s = a' ++ delimiter :: b' → runningDepth 0 a' = 0 → a.length ≤ a'.length := by
  constructor
  · intro h
    obtain ⟨hs, hzero, hnone, -⟩ := splitAtDepth_cut h
    refine ⟨hs, hzero, fun a' b' hs' hzero' => Nat.not_lt.mp fun hlt => ?_⟩
    obtain ⟨between, ha⟩ := exists_of_length_lt (hs.symm.trans hs') hlt
    exact (splitAtDepth_eq_none_iff hopen hclose).mp hnone a' between ha hzero'
  · rintro ⟨rfl, hzero, hshortest⟩
    refine splitAtDepth_append_cons ?_ hzero hopen hclose b
    refine (splitAtDepth_eq_none_iff hopen hclose).mpr fun p r ha hp => ?_
    have hle := hshortest p (r ++ delimiter :: b) (by rw [ha, List.append_assoc]; rfl) hp
    rw [ha, List.length_append, List.length_cons] at hle
    omega

/-! ## The scan for a delimiter with its checks -/

/-- The offset of the first delimiter at top level. -/
def delimiterOffset? (delimiter : Char) : (depth offset : Nat) → List Char → Option Nat
  | _, _, [] => none
  | depth, offset, c :: rest =>
    if c = '(' then delimiterOffset? delimiter (depth + 1) (offset + c.utf8Size) rest
    else if c = ')' then delimiterOffset? delimiter (depth - 1) (offset + c.utf8Size) rest
    else if c = delimiter && depth = 0 then some offset
    else delimiterOffset? delimiter depth (offset + c.utf8Size) rest

/-- `splitTopLevel` by offsets, where every cut is checked. -/
def checkedSplitTopLevel? (delimiter : Char) (s : List Char) :
    Option (Option (List Char × List Char)) :=
  match delimiterOffset? delimiter 0 0 s with
  | none => some none
  | some offset => do
    let (a, _) ← cut? offset s
    let (_, b) ← cut? (offset + delimiter.utf8Size) s
    return some (a, b)

theorem delimiterOffset?_eq (delimiter : Char) (depth offset : Nat) (s : List Char) :
    delimiterOffset? delimiter depth offset s =
      (splitAtDepth delimiter depth s).map fun parts => offset + byteSize parts.1 := by
  fun_induction splitAtDepth delimiter depth s generalizing offset with
  | case1 depth => rfl
  | case2 depth rest ih =>
    rw [delimiterOffset?, if_pos rfl, ih, Option.map_map]
    simp only [Function.comp_def, byteSize, Nat.add_assoc]
  | case3 depth rest hopen ih =>
    rw [delimiterOffset?, if_neg hopen, if_pos rfl, ih, Option.map_map]
    simp only [Function.comp_def, byteSize, Nat.add_assoc]
  | case4 depth c rest hopen hclose hcut =>
    rw [delimiterOffset?, if_neg hopen, if_neg hclose, if_pos hcut]
    rfl
  | case5 depth c rest hopen hclose hcut ih =>
    rw [delimiterOffset?, if_neg hopen, if_neg hclose, if_neg hcut, ih, Option.map_map]
    simp only [Function.comp_def, byteSize, Nat.add_assoc]

/-- The scan by offsets never fails, and finds what `splitTopLevel` finds. -/
theorem checkedSplitTopLevel?_eq (delimiter : Char) (s : List Char) :
    checkedSplitTopLevel? delimiter s = some (splitTopLevel delimiter s) := by
  rw [checkedSplitTopLevel?, delimiterOffset?_eq, ← splitTopLevel]
  cases hsplit : splitTopLevel delimiter s with
  | none => rfl
  | some parts =>
    obtain ⟨a, b⟩ := parts
    obtain ⟨rfl, -⟩ := splitAtDepth_cut hsplit
    have hafter : cut? (byteSize a + delimiter.utf8Size) (a ++ delimiter :: b) =
        some (a ++ [delimiter], b) :=
      cut?_eq_some.mpr ⟨by rw [List.append_assoc]; rfl, byteSize_append a [delimiter]⟩
    simp only [Option.map_some, Nat.zero_add, cut?_append, hafter, Option.bind_eq_bind,
      Option.bind_some]
    rfl

/-- A text is split at the end of its shortest start that is followed by the delimiter and leaves
no parenthesis open, and is not split if there is none.  Behind a part in which every parenthesis
has its partner, and the delimiter is only inside of them, the first delimiter is the one, whatever
comes after it.  All cuts are between characters. -/
theorem splitTopLevel_exact (hopen : delimiter ≠ '(') (hclose : delimiter ≠ ')') (s : List Char) :
    (∀ a b, splitTopLevel delimiter s = some (a, b) ↔
      s = a ++ delimiter :: b ∧ runningDepth 0 a = 0 ∧
        ∀ a' b', s = a' ++ delimiter :: b' → runningDepth 0 a' = 0 → a.length ≤ a'.length) ∧
    (splitTopLevel delimiter s = none ↔
      ¬ ∃ a b, s = a ++ delimiter :: b ∧ runningDepth 0 a = 0) ∧
    (∀ a b, s = a ++ delimiter :: b → Matched a →
      (∀ p r, a = p ++ delimiter :: r → runningDepth 0 p ≠ 0) →
        splitTopLevel delimiter s = some (a, b)) ∧
    checkedSplitTopLevel? delimiter s = some (splitTopLevel delimiter s) := by
  refine ⟨fun a b => splitTopLevel_eq_some_iff hopen hclose, ?_, ?_,
    checkedSplitTopLevel?_eq delimiter s⟩
  · simp only [not_exists, not_and]
    exact splitAtDepth_eq_none_iff hopen hclose
  · rintro a b rfl hmatched hinside
    exact splitTopLevel_append (balanced_iff_matched.mpr hmatched)
      ((splitAtDepth_eq_none_iff hopen hclose).mpr hinside) hopen hclose b

/-- A closing parenthesis without a partner does not count, nor does the arrow in the group. -/
theorem splitTopLevel_exact_strayClose :
    ('→' ≠ '(' ∧ '→' ≠ ')') ∧
    splitTopLevel '→' "1)é(0→1)→2→(3".toList = some ("1)é(0→1)".toList, "2→(3".toList) ∧
    ∀ a b, "1)é(0→1)→2→(3".toList = a ++ '→' :: b → runningDepth 0 a = 0 →
      "1)é(0→1)".toList.length ≤ a.length := by
  have hsplit : splitTopLevel '→' "1)é(0→1)→2→(3".toList =
      some ("1)é(0→1)".toList, "2→(3".toList) := by decide +kernel
  have hexact := @splitTopLevel_exact '→' (by decide) (by decide) "1)é(0→1)→2→(3".toList
  exact ⟨⟨by decide, by decide⟩, hsplit, ((hexact.1 _ _).mp hsplit).2.2⟩

end Divergence.Text
