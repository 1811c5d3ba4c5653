/-
# `Divergence.Enumeration.Sequences` — powers, products and choices of lists

The three enumerations that exhaustive expansion is made of.  All of them go
through their rows in lexicographic order of positions: the first place of a
row varies slowest.

Products are built factor by factor from the left, so that what is held on
the way is the product of the factors so far.
-/

namespace Divergence.Enumeration

/-- Every row that starts with one of `items` and goes on with one of `rows`. -/
def consEach {α : Type} (items : List α) (rows : List (List α)) : List (List α) :=
  items.flatMap fun x => rows.map (x :: ·)

/-- Every row that starts with one of `rows` and ends with one of `items`. -/
def snocEach {α : Type} (rows : List (List α)) (items : List α) : List (List α) :=
  rows.flatMap fun row => items.map fun x => row ++ [x]

/-- The sequences of a given length over `items`, repetition allowed.  There is one
sequence of length zero, whatever the items.

Lists are taken to fit in memory.  Where the room for a sequence is reserved before it is
made, a length whose size in bytes passes the address space fails instead, also over no
items, where there is no sequence to hold. -/
def power {α : Type} (items : List α) (length : Nat) : List (List α) :=
  Nat.repeat (consEach items) length [[]]

/-- The rows that take their entry at each place from the factor at that place. -/
def product {α : Type} (factors : List (List α)) : List (List α) :=
  factors.foldl snocEach [[]]

/-! ## Choices

The sublists of a length are listed by their rows of increasing positions,
from the row of the first positions on.  The next row raises the last position
that still has room, and lets those after it follow on directly.  `choices` is
the same list by recursion on the items: it says what that loop goes through,
and why it ends. -/

/-- The sublists of length `k`, in lexicographic order of positions. -/
def choices {α : Type} : (k : Nat) → List α → List (List α)
  | 0, _ => [[]]
  | _ + 1, [] => []
  | k + 1, x :: xs => (choices k xs).map (x :: ·) ++ choices (k + 1) xs

/-- The rows of positions below `n` that come after a row of the same length. -/
def rowsAfter (n : Nat) : List Nat → List (List Nat)
  | [] => []
  | i :: row =>
    (rowsAfter n row).map (i :: ·) ++ choices (row.length + 1) (List.range' (i + 1) (n - (i + 1)))

/-- The row of positions below `n` that comes next.  A position has room if it lies below
the place that it has in the last row. -/
def nextRow? (n : Nat) : List Nat → Option (List Nat)
  | [] => none
  | i :: row =>
    match nextRow? n row with
    | some next => some (i :: next)
    | none =>
      if i < n - (row.length + 1) then some (List.range' (i + 1) (row.length + 1)) else none

theorem choices_eq_nil {α : Type} {k : Nat} {xs : List α} (h : xs.length < k) :
    choices k xs = [] := by
  induction xs generalizing k with
  | nil => cases k with
    | zero => exact absurd h (Nat.not_lt_zero _)
    | succ k => rfl
  | cons x xs ih => cases k with
    | zero => exact absurd h (Nat.not_lt_zero _)
    | succ k =>
      rw [List.length_cons] at h
      rw [choices, ih (by omega), ih (by omega)]
      rfl

/-- The choices among consecutive positions start with the first row. -/
theorem choices_range' (k start count : Nat) (h : k ≤ count) :
    choices k (List.range' start count) =
      List.range' start k :: rowsAfter (start + count) (List.range' start k) := by
  induction count generalizing k start with
  | zero =>
    obtain rfl : k = 0 := by omega
    rfl
  | succ count ih => cases k with
    | zero => rfl
    | succ k =>
      have hcount : start + (count + 1) - (start + 1) = count := by omega
      rw [List.range'_succ, choices, ih k (start + 1) (by omega), List.range'_succ, rowsAfter,
        List.length_range', hcount, List.map_cons, List.cons_append,
        Nat.add_assoc start 1 count, Nat.add_comm 1 count]

theorem length_of_nextRow? {n : Nat} {row next : List Nat} (h : nextRow? n row = some next) :
    next.length = row.length := by
  induction row generalizing next with
  | nil => cases h
  | cons i row ih =>
    rw [nextRow?] at h
    split at h
    · next tail htail =>
      cases h
      rw [List.length_cons, List.length_cons, ih htail]
    · split at h
      · cases h
        rw [List.length_range', List.length_cons]
      · cases h

/-- `nextRow?` goes through the rows that come after a row, one by one. -/
theorem rowsAfter_eq (n : Nat) (row : List Nat) :
    rowsAfter n row =
      match nextRow? n row with
      | none => []
      | some next => next :: rowsAfter n next := by
  induction row with
  | nil => rfl
  | cons i row ih =>
    rw [rowsAfter, nextRow?, ih]
    cases hnext : nextRow? n row with
    | some next =>
      simp only [rowsAfter, length_of_nextRow? hnext, List.map_cons, List.cons_append]
    | none =>
      -- no later position has room, so position `i` is the one to raise
      by_cases hroom : i < n - (row.length + 1)
      · have hn : i + 1 + (n - (i + 1)) = n := by omega
        simp only [if_pos hroom, List.map_nil, List.nil_append]
        rw [choices_range' _ _ _ (by omega), hn]
      · simp only [if_neg hroom, List.map_nil, List.nil_append]
        exact choices_eq_nil (by rw [List.length_range']; omega)

/-- The items at some positions. -/
def itemsAt {α : Type} (items : Array α) (row : List Nat) : List α :=
  row.filterMap fun i => items[i]?

/-- The choices so far, in reverse, and then those from a row of positions on. -/
def choicesFrom {α : Type} (items : Array α) (found : List (List α)) (row : List Nat) :
    List (List α) :=
  match _h : nextRow? items.size row with
  | none => (itemsAt items row :: found).reverse
  | some next => choicesFrom items (itemsAt items row :: found) next
termination_by (rowsAfter items.size row).length
decreasing_by
  rw [rowsAfter_eq items.size row, _h]
  exact Nat.lt_succ_self _

def combinations {α : Type} (items : List α) (k : Nat) : List (List α) :=
  if items.length < k then [] else choicesFrom items.toArray [] (List.range k)

end Divergence.Enumeration
