/-
# `Divergence.Proofs.Keys` — sets and dictionaries outlive their evaluation

Here values are equal when they are built alike, bit by bit for doubles, and sets and
dictionaries keep their elements and keys apart by that.  Where a literal is evaluated
numbers are compared as numbers (`sameKey`): `0.0` is `-0.0`, and a set with both of
them would come out with one element less.

No generated set has both.  All its elements come from one side of one subtree, so two
doubles at the same place in two of them are from one domain.  A list keeps the first of
two equal doubles, by the numeric equality, and in a range there is no `-0.0`.  So in a
domain the two equalities are the same, and by induction over the subtree they are the
same for the elements.
-/
import Divergence.Proofs.Typing

namespace Divergence

open Divergence.Text Ordered Sampling

/-! ## Equality of keys -/

namespace Binary64

/-- The double is exactly this integer. -/
def isInteger (x : Binary64) (i : Int) : Bool :=
  let significand : Int := if x.negative then -x.significand else x.significand
  x.isFinite && significand * 2 ^ x.exponent.toNat == i * 2 ^ (-x.exponent).toNat

theorem numEq_comm (x y : Binary64) : x.numEq y = y.numEq x := by
  simp only [numEq, Bool.or_comm x.isNaN, Bool.and_comm (x.magnitude == 0), BEq.comm (a := x)]

end Binary64

namespace Value

/-- The integer that a value of an exact kind counts as. -/
def integer? : Value → Option Int
  | .int i => some i
  | .bool b => some b.toInt
  | .float _ | .str _ | .list _ | .tuple _ | .set _ | .dict _ => none

mutual

/-- Equality of the values that can be keys, as literals of them are compared.  Numbers of all
kinds are compared as numbers, truth values being `0` and `1`, and tuples entry by entry. -/
def sameKey : Value → Value → Bool
  | .str s, .str t => s == t
  | .tuple as, .tuple bs => sameKeys as bs
  | .float x, .float y => x.numEq y
  | .float x, b => b.integer?.any x.isInteger
  | a, .float y => a.integer?.any y.isInteger
  | a, b => a.integer?.any fun i => b.integer? == some i

def sameKeys : List Value → List Value → Bool
  | [], [] => true
  | a :: as, b :: bs => sameKey a b && sameKeys as bs
  | [], _ :: _ => false
  | _ :: _, [] => false

end

theorem sameKey_int {i j : Int} : sameKey (.int i) (.int j) = true ↔ i = j := by
  simpa [sameKey, integer?] using eq_comm

theorem sameKey_bool {a b : Bool} : sameKey (.bool a) (.bool b) = true ↔ a = b := by
  cases a <;> cases b <;> decide

theorem eq_of_sameKeys {as bs : List Value}
    (h : ∀ a ∈ as, ∀ b ∈ bs, sameKey a b = true → a = b) (hsame : sameKeys as bs = true) :
    as = bs := by
  induction as generalizing bs with
  | nil => cases bs with
    | nil => rfl
    | cons => cases hsame
  | cons a as ih => cases bs with
    | nil => cases hsame
    | cons b bs =>
      rw [sameKeys, Bool.and_eq_true] at hsame
      obtain ⟨hhead, htail⟩ := hsame
      rw [h a List.mem_cons_self b List.mem_cons_self hhead]
      congr 1
      refine ih (fun x hx y hy => ?_) htail
      exact h x (List.mem_cons_of_mem a hx) y (List.mem_cons_of_mem b hy)

/-- The keys are in increasing order, they can be keys, and no two of them are equal; so of keys
that are evaluated one after another all stay. -/
structure DistinctKeys (keys : List Value) : Prop where
  increasing : Increasing id cmp keys
  immutable : ∀ k ∈ keys, k.Immutable
  apart : keys.Pairwise fun a b => sameKey a b = false
  kept : distinctBy sameKey keys = keys

/-- In every set and every dictionary that occurs in the value the keys are distinct. -/
structure KeysApart (v : Value) : Prop where
  elements : ∀ elements, (Value.set elements).OccursIn v → DistinctKeys elements
  keys : ∀ entries, (Value.dict entries).OccursIn v → DistinctKeys (entries.map Prod.fst)

/-- Increasing keys are distinct if no others are equal than those that are the same. -/
theorem distinctKeys_of_increasing {keys : List Value} (hincreasing : Increasing id cmp keys)
    (himmutable : ∀ k ∈ keys, k.Immutable)
    (hsame : ∀ a ∈ keys, ∀ b ∈ keys, sameKey a b = true → a = b) : DistinctKeys keys := by
  have hnodup : keys.Nodup := by
    have hids := nodup_keys hincreasing
    rwa [List.map_id] at hids
  have hapart : keys.Pairwise fun a b => sameKey a b = false := by
    refine hnodup.imp_of_mem fun {a b} ha hb hne => ?_
    rw [← Bool.not_eq_true]
    intro heq
    exact hne (hsame a ha b hb heq)
  exact ⟨hincreasing, himmutable, hapart, distinctBy_eq_self hapart⟩

end Value

/-! ## Domains of doubles -/

namespace SimpleDomain

/-- In a list of doubles no zero follows one of the other sign, and in a range all zeros are
positive. -/
theorem eq_of_numEq {text : List Char} {values : List Binary64}
    (h : read Binary64 text = .ok values) :
    ∀ x ∈ values, ∀ y ∈ values, x.numEq y = true → x = y := by
  intro x hx y hy hsame
  rcases read_cases h with ⟨-, hlist⟩ | ⟨lower, upper, -, hrange⟩
  · by_contra hne
    have hsymm : Std.Symm fun a b : Binary64 => a.numEq b = false := by
      constructor
      intro a b hab
      rw [Binary64.numEq_comm, hab]
    have hapart : x.numEq y = false := (unrepeated_of_readList hlist).forall hx hy hne
    rw [hsame] at hapart
    cases hapart
  · obtain ⟨n, -, hn⟩ := exists_mem_of_forall₂ (rangeValues_eq_ok hrange) hx
    obtain ⟨m, -, hm⟩ := exists_mem_of_forall₂ (rangeValues_eq_ok hrange) hy
    cases hn
    cases hm
    exact Binary64.numEq_ofInt.mp hsame

end SimpleDomain

namespace DomainTree

/-- Doubles of one domain are numerically equal only if they are the same. -/
def oneZero : DomainProperty where
  int _ := True
  float values := ∀ x ∈ values, ∀ y ∈ values, x.numEq y = true → x = y
  bool _ := True
  length _ := True

theorem oneZero_ofRead : oneZero.OfRead where
  int _ := trivial
  float := SimpleDomain.eq_of_numEq
  bool _ := trivial
  length _ := trivial

/-! ## Values of one tree -/

variable {side : Side} {t : DomainTree} {v : Value}

/-- Two values of one side are equal keys only if they are the same. -/
theorem Allows.eq_of_sameKey {a b : Value} (ha : t.Allows side a) (hb : t.Allows side b)
    (hzero : t.Everywhere oneZero side) (hsame : a.sameKey b = true) : a = b := by
  induction ha generalizing b with
  | int =>
    cases hb
    rw [Value.sameKey_int.mp hsame]
  | float hx =>
    cases hb with
    | float hy => rw [hzero _ hx _ hy hsame]
  | bool =>
    cases hb
    rw [Value.sameKey_bool.mp hsame]
  | str =>
    cases hb
    rw [eq_of_beq hsame]
  | tuple _ ih =>
    cases hb with
    | tuple hitems =>
      rw [Value.eq_of_sameKeys (fun x hx y hy => ih x hx (hitems y hy) hzero.1) hsame]
  | list | set | dict =>
    cases hb
    cases hsame

theorem Allows.keysApart (hv : t.Allows side v) (hhashed : t.shape.Hashed)
    (hzero : t.Everywhere oneZero side) : v.KeysApart where
  elements elements hset := by
    obtain ⟨n, hn, hallows⟩ := exists_node_allows hv hset
    have hbelow := everywhere_of_mem_nodes hzero hn
    cases hallows with
    | set hincreasing helements =>
      refine Value.distinctKeys_of_increasing hincreasing
        (hv.hasShape.immutable_elements hhashed hset) fun a ha b hb => ?_
      exact (helements a ha).eq_of_sameKey (helements b hb) hbelow.1
  keys entries hdict := by
    obtain ⟨n, hn, hallows⟩ := exists_node_allows hv hdict
    have hbelow := everywhere_of_mem_nodes hzero hn
    cases hallows with
    | dict hincreasing hkeys _ =>
      have hallowed : ∀ k ∈ entries.map Prod.fst, Allows side _ k :=
        List.forall_mem_map.mpr hkeys
      refine Value.distinctKeys_of_increasing (List.pairwise_map.mpr hincreasing)
        (List.forall_mem_map.mpr (hv.hasShape.immutable_keys hhashed hdict)) fun a ha b hb => ?_
      exact (hallowed a ha).eq_of_sameKey (hallowed b hb) hbelow.1

/-- In all values of a tree that is read for a type that is read, those that are enumerated and
those that are drawn in whatever way, the elements of every set and the keys of every dictionary
are in increasing order, and no two of them are equal where the literal is evaluated. -/
theorem keysApart_of_read {token x r : List Char} {shape : Shape} {t : DomainTree}
    (hshape : Shape.read token = .ok shape) (h : read shape x r = .ok t) :
    (∀ v ∈ t.values, v.KeysApart) ∧
      ∀ {σ : Type} (c : Chooser σ) (s : σ) (v : Value), (t.sample c s).1 = some v →
        v.KeysApart := by
  obtain ⟨rfl, hx, hr⟩ := read_eq_ok.mp h
  have hhashed := Shape.hashed_of_read hshape
  constructor
  · intro v hv
    exact (allows_of_mem_values hv).keysApart hhashed (everywhere_of_reads oneZero_ofRead hx)
  · intro σ c s v hv
    exact (allows_of_sample hv).keysApart hhashed (everywhere_of_reads oneZero_ofRead hr)

/-- Sets of tuples of doubles: enumerated from a range that has the first of them twice, drawn from
a list with both zeros in it. -/
def roundedTuples : DomainTree :=
  .set (.tuple (.float
    ⟨[⟨0x4340000000000000⟩, ⟨0x4340000000000000⟩, ⟨0x4340000000000001⟩],
      [⟨0⟩, ⟨0x3FF8000000000000⟩]⟩) ⟨[1], [2]⟩) ⟨[2], [0, 1, 2]⟩

theorem keysApart_of_read_roundedTuples :
    Shape.read "set(tuple(float))".toList = .ok roundedTuples.shape ∧
      read roundedTuples.shape "2(1(9007199254740992~9007199254740994))".toList
        "0~2(2([0.0,-0.0,1.5]))".toList = .ok roundedTuples ∧
      (∀ v ∈ roundedTuples.values, v.KeysApart) ∧
        ∀ {σ : Type} (c : Chooser σ) (s : σ) (v : Value), (roundedTuples.sample c s).1 = some v →
          v.KeysApart := by
  have hshape : Shape.read "set(tuple(float))".toList = .ok roundedTuples.shape := by
    decide +kernel
  have hread : read roundedTuples.shape "2(1(9007199254740992~9007199254740994))".toList
      "0~2(2([0.0,-0.0,1.5]))".toList = .ok roundedTuples := by
    decide +kernel
  exact ⟨hshape, hread, keysApart_of_read hshape hread⟩

end DomainTree

end Divergence
