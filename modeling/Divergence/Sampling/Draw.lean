/-
# `Divergence.Sampling.Draw` — drawing from lists

A draw takes a state, may fail to give anything, and leaves a state behind
either way: what was consumed before a failure stays consumed.  All that a
draw ever asks of its source of randomness is an index below a given length,
so sampling is written against a `Chooser` and knows nothing of how indexes
come about.

The keystream is one chooser.  A random word times the length gives the index
in its upper half; its lower half tells whether the word may be used, which
keeps all indexes equally likely.
-/
import Divergence.Sampling.Keystream

namespace Divergence.Sampling

/-- A random draw: a result if there is one, and the state after it. -/
def Draw (σ α : Type) : Type :=
  σ → Option α × σ

instance {σ : Type} : Monad (Draw σ) where
  pure a := fun s => (some a, s)
  bind d f := fun s =>
    match d s with
    | (some a, s) => f a s
    | (none, s) => (none, s)

/-- A source of indexes. -/
structure Chooser (σ : Type) where
  /-- An index below `n + 1`, and the state after it was drawn. -/
  index : (n : Nat) → σ → Fin (n + 1) × σ

/-- One of the entries of a list.  The empty list gives nothing and draws nothing. -/
def Chooser.choose {σ α : Type} (c : Chooser σ) : List α → Draw σ α
  | [] => fun s => (none, s)
  | x :: xs => fun s =>
    let (i, s) := c.index xs.length s
    (some ((x :: xs).get i), s)

/-- The results of `n` draws, one after the other; the first failure ends the drawing. -/
def Draw.times {σ α : Type} (d : Draw σ α) : Nat → Draw σ (List α)
  | 0 => pure []
  | n + 1 => do
    let a ← d
    let rest ← d.times n
    return a :: rest

/-- The results of several draws, one after the other; the first failure ends the
drawing. -/
def Draw.all {σ α : Type} : List (Draw σ α) → Draw σ (List α)
  | [] => pure []
  | d :: ds => do
    let a ← d
    let rest ← Draw.all ds
    return a :: rest

/-! ## Drawing from a keystream -/

/-- The greatest lower half at which a word may be used for an index below `n`. -/
def zone (n : Nat) : Nat :=
  (n <<< (31 - n.log2)) - 1

/-- The index below `n` that a word stands for. -/
def indexOf (n : Nat) (w : UInt32) : Nat :=
  w.toNat * n / 0x100000000

/-- Whether a word may be used for an index below `n`. -/
def usable (n : Nat) (w : UInt32) : Bool :=
  w.toNat * n % 0x100000000 ≤ zone n

/-- An index below `n`.  Words that may not be used are passed over, at most `attempts` of
them; the bound makes drawing end, and is out of reach because at least half of all words
may be used. -/
def Keystream.index (n : Nat) : (attempts : Nat) → Keystream → Nat × Keystream
  | 0, s =>
    let (w, s) := s.word32
    (indexOf n w, s)
  | attempts + 1, s =>
    let (w, s) := s.word32
    if usable n w then (indexOf n w, s) else Keystream.index n attempts s

theorem indexOf_lt {n : Nat} (hn : 0 < n) (w : UInt32) : indexOf n w < n := by
  have hw : w.toNat < 0x100000000 := w.toNat_lt
  rw [indexOf, Nat.div_lt_iff_lt_mul (by decide), Nat.mul_comm n]
  exact Nat.mul_lt_mul_of_pos_right hw hn

theorem Keystream.index_lt {n : Nat} (hn : 0 < n) (attempts : Nat) (s : Keystream) :
    (Keystream.index n attempts s).1 < n := by
  induction attempts generalizing s with
  | zero => exact indexOf_lt hn _
  | succ k ih =>
    simp only [Keystream.index]
    split
    · exact indexOf_lt hn _
    · exact ih _

/-- The chooser that draws from a keystream. -/
def Keystream.chooser : Chooser Keystream where
  index n s :=
    let drawn := Keystream.index (n + 1) 256 s
    (⟨drawn.1, Keystream.index_lt (Nat.succ_pos n) 256 s⟩, drawn.2)

end Divergence.Sampling
