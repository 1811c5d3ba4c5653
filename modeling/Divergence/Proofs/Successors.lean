/-
# `Divergence.Proofs.Successors` — the loop over rows of positions

`combinations` goes from one row of increasing positions to the next until none has room.  A row
that the loop reaches is always one of `k` increasing positions below the number of items
(`IsRow.next`).  So every position that it looks up holds an item, and no subtraction falls below
zero.  Both are said by a loop that checks them: `checkedCombinations?` keeps the row as a vector of
positions, scans it from the last place, raises one position and writes those behind it over again,
and it has no result when an access or a subtraction fails, or when its rounds run out.  One step of
it is one of `nextRow?` (`advance?_eq`), and so the whole loop is `combinations`.

The rows come in lexicographic order: the choices of the positions are strictly increasing
(`pairwise_lt_choices`) and are the rows of increasing positions, each of them once and none
besides (`mem_choices_range`).
-/
import Divergence.Proofs.Sequences
import Mathlib.Data.List.Induction
import Mathlib.Data.List.Sort

namespace Divergence.Enumeration

variable {α : Type}

/-! ## Rows of positions -/

/-- The rows that the loop goes through: `k` increasing positions below `n`. -/
structure IsRow (n k : Nat) (row : List Nat) : Prop where
  length : row.length = k
  increasing : row.Pairwise (· < ·)
  below : ∀ i ∈ row, i < n

theorem mem_choices_range {n k : Nat} {row : List Nat} :
    row ∈ choices k (List.range n) ↔ IsRow n k row := by
  rw [mem_choices]
  constructor
  · rintro ⟨hsub, hlen⟩
    exact ⟨hlen, List.pairwise_lt_range.sublist hsub,
      fun i hi => List.mem_range.mp (hsub.subset hi)⟩
  · intro h
    have hsubset : row ⊆ List.range n := fun i hi => List.mem_range.mpr (h.below i hi)
    have hsubperm := List.subperm_of_subset h.increasing.nodup hsubset
    exact ⟨List.sublist_of_subperm_of_pairwise hsubperm h.increasing List.pairwise_lt_range,
      h.length⟩

theorem IsRow.le {n k : Nat} {row : List Nat} (h : IsRow n k row) : k ≤ n := by
  have hsub := (mem_choices.mp (mem_choices_range.mpr h)).1.length_le
  rwa [h.length, List.length_range] at hsub

theorem isRow_range {n k : Nat} (h : k ≤ n) : IsRow n k (List.range k) where
  length := List.length_range
  increasing := List.pairwise_lt_range
  below _ hi := Nat.lt_of_lt_of_le (List.mem_range.mp hi) h

/-- The choices of an increasing list increase: those with its first item come before the rest. -/
theorem pairwise_lt_choices {xs : List Nat} (h : xs.Pairwise (· < ·)) (k : Nat) :
    (choices k xs).Pairwise (· < ·) := by
  induction xs generalizing k with
  | nil => cases k with
    | zero => exact List.pairwise_singleton _ _
    | succ k => exact List.Pairwise.nil
  | cons x xs ih => cases k with
    | zero => exact List.pairwise_singleton _ _
    | succ k =>
      obtain ⟨hx, hxs⟩ := List.pairwise_cons.mp h
      rw [choices, List.pairwise_append, List.pairwise_map]
      refine ⟨(ih hxs k).imp List.Lex.cons, ih hxs (k + 1), ?_⟩
      intro first hfirst row hrow
      obtain ⟨rest, -, rfl⟩ := List.mem_map.mp hfirst
      obtain ⟨hsub, hlen⟩ := mem_choices.mp hrow
      cases row with
      | nil => cases hlen
      | cons y row => exact List.Lex.rel (hx y (hsub.subset List.mem_cons_self))

/-! ## One step -/

theorem nextRow?_append {n : Nat} {back next : List Nat} (h : nextRow? n back = some next)
    (front : List Nat) : nextRow? n (front ++ back) = some (front ++ next) := by
  induction front with
  | nil => exact h
  | cons i front ih => rw [List.cons_append, nextRow?, ih, List.cons_append]

theorem nextRow?_cons_of_eq_none {n : Nat} {back : List Nat} (h : nextRow? n back = none)
    (i : Nat) :
    nextRow? n (i :: back) =
      if i < n - (back.length + 1) then some (List.range' (i + 1) (back.length + 1)) else none := by
  rw [nextRow?, h]

/-- The next row keeps a front, raises the position after it, which is the last that has room,
and lets those behind follow on. -/
theorem nextRow?_eq_some {n : Nat} {row next : List Nat} (h : nextRow? n row = some next) :
    ∃ front position back, row = front ++ position :: back ∧
      position < n - (back.length + 1) ∧
      next = front ++ List.range' (position + 1) (back.length + 1) := by
  induction row generalizing next with
  | nil => cases h
  | cons i row ih =>
    cases hrow : nextRow? n row with
    | some next' =>
      obtain ⟨front, position, back, rfl, hroom, rfl⟩ := ih hrow
      rw [nextRow?, hrow] at h
      cases h
      exact ⟨i :: front, position, back, rfl, hroom, rfl⟩
    | none =>
      rw [nextRow?_cons_of_eq_none hrow] at h
      split at h
      · next hroom =>
        cases h
        exact ⟨[], i, row, rfl, hroom, rfl⟩
      · cases h

/-- What a step keeps. -/
theorem IsRow.next {n k : Nat} {row next : List Nat} (h : IsRow n k row)
    (hnext : nextRow? n row = some next) : IsRow n k next := by
  have hlen : next.length = k := (length_of_nextRow? hnext).trans h.length
  obtain ⟨front, position, back, rfl, hroom, rfl⟩ := nextRow?_eq_some hnext
  obtain ⟨hfront, -, hcross⟩ := List.pairwise_append.mp h.increasing
  refine ⟨hlen, List.pairwise_append.mpr ⟨hfront, List.pairwise_lt_range', ?_⟩, ?_⟩
  · intro i hi j hj
    have hi := hcross i hi position List.mem_cons_self
    have hj := (List.mem_range'_1.mp hj).1
    omega
  · intro i hi
    rcases List.mem_append.mp hi with hi | hi
    · exact h.below i (List.mem_append_left _ hi)
    · have hi := (List.mem_range'_1.mp hi).2
      omega

/-! ## The loop with its checks -/

/-- Subtraction that fails below zero. -/
def sub? (a b : Nat) : Option Nat :=
  if b ≤ a then some (a - b) else none

/-- A row with another position at a place that it has. -/
def setAt? (row : List Nat) (place position : Nat) : Option (List Nat) :=
  if place < row.length then some (row.set place position) else none

/-- Whether the position at a place of a row of `k` still has room below `n`. -/
def hasRoom? (n k : Nat) (row : List Nat) (place : Nat) : Option Bool := do
  let position ← row[place]?
  let spare ← sub? n k
  return position < spare + place

/-- The last of the first places whose position has room, if any. -/
def lastRoom? (n k : Nat) (row : List Nat) : (places : Nat) → Option (Option Nat)
  | 0 => some none
  | place + 1 => do
    if ← hasRoom? n k row place then return some place else lastRoom? n k row place

/-- Writes one more than the position before, to so many places from one on. -/
def followOn? (row : List Nat) (place : Nat) : (count : Nat) → Option (List Nat)
  | 0 => some row
  | count + 1 => do
    let earlier ← sub? place 1
    let position ← row[earlier]?
    let row ← setAt? row place (position + 1)
    followOn? row (place + 1) count

/-- One step of the loop: the next row, or none when no position has room. -/
def advance? (n k : Nat) (row : List Nat) : Option (Option (List Nat)) := do
  match ← lastRoom? n k row k with
  | none => return none
  | some place =>
    let position ← row[place]?
    let raised ← setAt? row place (position + 1)
    return some (← followOn? raised (place + 1) (k - (place + 1)))

/-- The loop from a row on, with the choices found before in reverse. -/
def checkedFrom? (items : List α) (k : Nat) :
    (rounds : Nat) → List (List α) → List Nat → Option (List (List α))
  | 0, _, _ => none
  | rounds + 1, found, row => do
    let chosen ← row.mapM (items[·]?)
    match ← advance? items.length k row with
    | none => return (chosen :: found).reverse
    | some next => checkedFrom? items k rounds (chosen :: found) next

/-- The choices of `k` items, if every check passes and the loop ends within so many rounds. -/
def checkedCombinations? (items : List α) (k rounds : Nat) : Option (List (List α)) :=
  if items.length < k then some [] else checkedFrom? items k rounds [] (List.range k)

/-! ## The checks pass -/

theorem sub?_of_le {a b : Nat} (h : b ≤ a) : sub? a b = some (a - b) :=
  if_pos h

theorem setAt?_append (front : List Nat) (i : Nat) (back : List Nat) (position : Nat) :
    setAt? (front ++ i :: back) front.length position = some (front ++ position :: back) := by
  have hlt : front.length < (front ++ i :: back).length := by
    rw [List.length_append, List.length_cons]
    omega
  rw [setAt?, if_pos hlt, List.set_append_right _ _ (Nat.le_refl _), Nat.sub_self,
    List.set_cons_zero]

theorem getElem?_append_cons (front : List Nat) (i : Nat) (back : List Nat) :
    (front ++ i :: back)[front.length]? = some i := by
  rw [List.getElem?_append_right (Nat.le_refl _), Nat.sub_self, List.getElem?_cons_zero]

/-- A place has room in the vector if its position has room in the row. -/
theorem hasRoom?_append {n k : Nat} (h : k ≤ n) {front back : List Nat} {i : Nat}
    (hlen : (front ++ i :: back).length = k) :
    hasRoom? n k (front ++ i :: back) front.length = some (decide (i < n - (back.length + 1))) := by
  have hplace : n - k + front.length = n - (back.length + 1) := by
    rw [List.length_append, List.length_cons] at hlen
    omega
  rw [hasRoom?, getElem?_append_cons, sub?_of_le h, ← hplace]
  rfl

theorem followOn?_append (front : List Nat) (i : Nat) (back : List Nat) :
    followOn? (front ++ i :: back) (front.length + 1) back.length =
      some (front ++ List.range' i (back.length + 1)) := by
  induction back generalizing front i with
  | nil => rfl
  | cons j back ih =>
    -- the place after the front now counts as front, with the position written before it
    have hset := setAt?_append (front ++ [i]) j back (i + 1)
    have hrest := ih (front ++ [i]) (i + 1)
    rw [List.length_append, List.length_singleton, List.append_assoc, List.append_assoc]
      at hset hrest
    show followOn? (front ++ i :: j :: back) (front.length + 1) (back.length + 1) = _
    rw [followOn?, sub?_of_le (Nat.le_add_left 1 _), Nat.add_sub_cancel]
    simp only [Option.bind_eq_bind, Option.bind_some, getElem?_append_cons]
    rw [List.singleton_append, List.singleton_append] at hset
    rw [hset, Option.bind_some]
    exact hrest

/-- The scan from the last place finds the place that `nextRow?` raises. -/
theorem lastRoom?_append {n k : Nat} (h : k ≤ n) {front back : List Nat}
    (hlen : (front ++ back).length = k) (hback : nextRow? n back = none) :
    (lastRoom? n k (front ++ back) front.length = some none ∧
      nextRow? n (front ++ back) = none) ∨
    ∃ kept position rest, front ++ back = kept ++ position :: rest ∧
      lastRoom? n k (front ++ back) front.length = some (some kept.length) ∧
      nextRow? n (front ++ back) =
        some (kept ++ List.range' (position + 1) (rest.length + 1)) := by
  induction front using List.reverseRecOn generalizing back with
  | nil => exact .inl ⟨rfl, hback⟩
  | append_singleton front i ih =>
    have hnext := nextRow?_cons_of_eq_none hback i
    rw [List.append_assoc, List.singleton_append] at hlen ⊢
    rw [List.length_append, List.length_singleton, lastRoom?, hasRoom?_append h hlen]
    by_cases hroom : i < n - (back.length + 1)
    · rw [if_pos hroom] at hnext
      refine .inr ⟨front, i, back, rfl, ?_, nextRow?_append hnext front⟩
      rw [decide_eq_true hroom]
      rfl
    · rw [if_neg hroom] at hnext
      rw [decide_eq_false hroom]
      exact ih hlen hnext

/-- One step of the loop with its checks is one of `nextRow?`. -/
theorem advance?_eq {n k : Nat} {row : List Nat} (h : k ≤ n) (hlen : row.length = k) :
    advance? n k row = some (nextRow? n row) := by
  have hscan := @lastRoom?_append n k h row [] (by rwa [List.append_nil]) rfl
  rw [List.append_nil, hlen] at hscan
  rw [advance?]
  rcases hscan with ⟨hlast, hnext⟩ | ⟨kept, position, rest, rfl, hlast, hnext⟩
  · rw [hlast, hnext]
    rfl
  · have hcount : k - (kept.length + 1) = rest.length := by
      rw [List.length_append, List.length_cons] at hlen
      omega
    rw [hlast, hnext]
    simp only [Option.bind_eq_bind, Option.bind_some, getElem?_append_cons, setAt?_append, hcount,
      followOn?_append]
    rfl

/-- Every position of a row holds an item. -/
theorem mapM_getElem?_eq {items : List α} {row : List Nat} (h : ∀ i ∈ row, i < items.length) :
    row.mapM (items[·]?) = some (itemsAt items.toArray row) := by
  induction row with
  | nil => rfl
  | cons i row ih =>
    obtain ⟨hi, hrow⟩ := List.forall_mem_cons.mp h
    have hitem : items[i]? = some items[i] := List.getElem?_eq_getElem hi
    have hat : itemsAt items.toArray (i :: row) = items[i] :: itemsAt items.toArray row :=
      List.filterMap_cons_some (List.getElem?_toArray.trans hitem)
    rw [List.mapM_cons, ih hrow, hitem, hat]
    rfl

theorem choicesFrom_step (items : List α) (found : List (List α)) (row : List Nat) :
    choicesFrom items.toArray found row =
      match nextRow? items.length row with
      | none => (itemsAt items.toArray row :: found).reverse
      | some next => choicesFrom items.toArray (itemsAt items.toArray row :: found) next := by
  rw [choicesFrom]
  split
  · next h => rw [show nextRow? items.length row = none from h]
  · next h => rw [show nextRow? items.length row = some _ from h]

/-- The whole loop, from any row that it can reach. -/
theorem checkedFrom?_eq {items : List α} {k rounds : Nat} {found : List (List α)}
    {row : List Nat} (hrow : IsRow items.length k row)
    (h : (rowsAfter items.length row).length < rounds) :
    checkedFrom? items k rounds found row = some (choicesFrom items.toArray found row) := by
  induction rounds generalizing found row with
  | zero => exact absurd h (Nat.not_lt_zero _)
  | succ rounds ih =>
    rw [rowsAfter_eq] at h
    rw [checkedFrom?, mapM_getElem?_eq hrow.below, advance?_eq hrow.le hrow.length,
      choicesFrom_step]
    simp only [Option.bind_eq_bind, Option.bind_some]
    cases hnext : nextRow? items.length row with
    | none => rfl
    | some next =>
      rw [hnext] at h
      exact ih (hrow.next hnext) (Nat.lt_of_succ_lt_succ h)

/-! ## The whole list -/

theorem map_choices {β : Type} (f : α → β) (xs : List α) (k : Nat) :
    (choices k xs).map (List.map f) = choices k (xs.map f) := by
  have h : (choices k xs).map (List.filterMap (some ∘ f)) = choices k (xs.filterMap (some ∘ f)) :=
    map_filterMap_choices (fun _ _ => rfl) k
  rwa [List.filterMap_eq_map] at h

/-- The rows of positions of the loop, and that it needs one round for each. -/
theorem length_rowsAfter_range {n k : Nat} (h : k ≤ n) :
    (rowsAfter n (List.range k)).length + 1 = n.choose k := by
  have hrows := congrArg List.length (choices_range' k 0 n h)
  rw [length_choices, List.length_range', Nat.zero_add, List.length_cons] at hrows
  rw [List.range_eq_range', hrows]

/-- The choices of `k` items are listed by the loop without an access outside of the items or a
subtraction below zero, in as many rounds as there are choices.  They are the items at the rows of
`k` increasing positions, each row once and in lexicographic order. -/
theorem combinations_in_order (items : List α) (k : Nat) :
    checkedCombinations? items k (items.length.choose k) = some (combinations items k) ∧
    (∃ rows : List (List Nat),
      (∀ row, row ∈ rows ↔ IsRow items.length k row) ∧ rows.Pairwise (· < ·) ∧
      (combinations items k).map (List.map some) = rows.map (List.map (items[·]?))) ∧
    (combinations items k).length = items.length.choose k ∧
    combinations items 0 = [[]] ∧
    (items.length < k → combinations items k = []) := by
  refine ⟨?_, ⟨choices k (List.range items.length), ?_, ?_, ?_⟩, ?_, ?_, ?_⟩
  · by_cases hk : items.length < k
    · rw [checkedCombinations?, if_pos hk, combinations, if_pos hk]
    · have hle : k ≤ items.length := Nat.not_lt.mp hk
      rw [checkedCombinations?, if_neg hk, combinations, if_neg hk]
      refine checkedFrom?_eq (isRow_range hle) ?_
      rw [← length_rowsAfter_range hle]
      exact Nat.lt_succ_self _
  · exact fun row => mem_choices_range
  · exact pairwise_lt_choices List.pairwise_lt_range k
  · rw [combinations_eq_choices, map_choices, map_choices, ← map_getElem?_range]
    simp only [List.getElem?_toArray]
  · rw [combinations_eq_choices, length_choices]
  · rw [combinations_eq_choices, choices]
  · exact fun h => if_pos h

-- one round for each choice, and no fewer
example : checkedCombinations? [1, 2, 3] 2 3 = some [[1, 2], [1, 3], [2, 3]] ∧
    checkedCombinations? [1, 2, 3] 2 2 = none := ⟨rfl, rfl⟩

end Divergence.Enumeration
