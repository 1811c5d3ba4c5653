/-
# `Divergence.Ordered` — canonical forms under an order

A finite set is kept as the increasing list of its elements, and a finite map
as the list of its entries with increasing keys.  Both are made from a list
in any order and with any repetitions, by a stable sort and one pass that
drops every entry whose successor is equal.  Since the sort is stable, the
entry that stays of several with equal keys is the one that came last.
-/

namespace Divergence.Ordered

/-- The entries that do not compare equal, by their keys, to the entry after them. -/
def dropEqual {α κ : Type} (key : α → κ) (cmp : κ → κ → Ordering) : List α → List α
  | [] => []
  | [a] => [a]
  | a :: b :: rest =>
    if cmp (key a) (key b) == .eq then dropEqual key cmp (b :: rest)
    else a :: dropEqual key cmp (b :: rest)

/-- Entries by increasing key, the last of several with equal keys. -/
def byKey {α κ : Type} (key : α → κ) (cmp : κ → κ → Ordering) (entries : List α) :
    List α :=
  dropEqual key cmp (entries.mergeSort fun a b => (cmp (key a) (key b)).isLE)

/-- The elements in increasing order, none twice. -/
def elements {α : Type} (cmp : α → α → Ordering) (xs : List α) : List α :=
  byKey id cmp xs

end Divergence.Ordered
