/-
# `Divergence.Value.Basic` — argument values and their order

The values that functions under test are called with.  They are totally
ordered, so that sets and dictionaries have one canonical form: elements, or
keys, in increasing order and none twice.  Values of different kinds are
ordered by kind, booleans first and dictionaries last; within a kind
sequences are compared entry by entry, strings by code point, and doubles by
the total order on bit patterns.
-/
import Divergence.Binary64.Basic
import Divergence.Ordered

namespace Divergence

inductive Value where
  | int (i : Int)
  | float (x : Binary64)
  | bool (b : Bool)
  | str (s : String)
  | list (items : List Value)
  | tuple (items : List Value)
  /-- Elements in increasing order; build with `Value.ofElements`. -/
  | set (elements : List Value)
  /-- Entries with keys in increasing order; build with `Value.ofEntries`. -/
  | dict (entries : List (Value × Value))
  deriving Repr

/-- The arguments of one call, one value for each parameter. -/
abbrev Input := List Value

namespace Value

/-! ## Order -/

def rank : Value → Nat
  | .bool _ => 0
  | .int _ => 1
  | .float _ => 2
  | .str _ => 3
  | .tuple _ => 4
  | .list _ => 5
  | .set _ => 6
  | .dict _ => 7

mutual

def cmp : Value → Value → Ordering
  | .int a, .int b => compare a b
  | .float a, .float b => compare a.orderKey b.orderKey
  | .bool a, .bool b => compare a b
  | .str a, .str b => compare a b
  | .list a, .list b => cmpItems a b
  | .tuple a, .tuple b => cmpItems a b
  | .set a, .set b => cmpItems a b
  | .dict a, .dict b => cmpEntries a b
  | a, b => compare a.rank b.rank

/-- Sequences are ordered by their first difference, a sequence before its
continuations. -/
def cmpItems : List Value → List Value → Ordering
  | [], [] => .eq
  | [], _ :: _ => .lt
  | _ :: _, [] => .gt
  | a :: as, b :: bs => (cmp a b).then (cmpItems as bs)

/-- Entries are ordered by key and then by value. -/
def cmpEntries : List (Value × Value) → List (Value × Value) → Ordering
  | [], [] => .eq
  | [], _ :: _ => .lt
  | _ :: _, [] => .gt
  | (k, v) :: as, (k', v') :: bs =>
    ((cmp k k').then (cmp v v')).then (cmpEntries as bs)

end

instance : Ord Value := ⟨cmp⟩

/-- Values are equal when neither comes before the other. -/
instance : BEq Value := ⟨fun a b => cmp a b == .eq⟩

/-! ## Hashing

A hasher is fed with words, and a value says which: its kind first, then what it holds.  Before
the entries of a sequence goes their number, so that none is taken for what comes after them. -/

inductive HashWord where
  /-- The rank of a kind of values. -/
  | kind (rank : Nat)
  | int (i : Int)
  | bits (bits : UInt64)
  | bool (b : Bool)
  | str (s : String)
  /-- The number of entries that follow. -/
  | length (n : Nat)
  deriving DecidableEq, Hashable, Repr

section Feed

variable {σ : Type} (write : σ → HashWord → σ)

mutual

/-- The state of a hasher after it was fed with a value. -/
def feed (state : σ) (v : Value) : σ :=
  let state := write state (.kind v.rank)
  match v with
  | .int i => write state (.int i)
  | .float x => write state (.bits x.bits)
  | .bool b => write state (.bool b)
  | .str s => write state (.str s)
  | .list items | .tuple items | .set items =>
    feedItems (write state (.length items.length)) items
  | .dict entries => feedEntries (write state (.length entries.length)) entries

def feedItems (state : σ) : List Value → σ
  | [] => state
  | a :: as => feedItems (feed state a) as

/-- Each key goes before its value. -/
def feedEntries (state : σ) : List (Value × Value) → σ
  | [] => state
  | (k, v) :: as => feedEntries (feed (feed state k) v) as

end

end Feed

instance : Hashable Value := ⟨feed (fun seed word => mixHash seed (hash word)) 7⟩

/-! ## Canonical sets and dictionaries -/

/-- The set of some elements, in any order and with any repetitions. -/
def ofElements (elements : List Value) : Value :=
  .set (Ordered.elements cmp elements)

/-- The dictionary of some entries; of entries with equal keys the last one counts. -/
def ofEntries (entries : List (Value × Value)) : Value :=
  .dict (Ordered.byKey Prod.fst cmp entries)

/-! ## Length -/

/-- The number of characters of a string, or of entries of a container. -/
def length? : Value → Option Nat
  | .str s => some s.length
  | .list items | .tuple items | .set items => some items.length
  | .dict entries => some entries.length
  | .int _ | .float _ | .bool _ => none

end Value

end Divergence
