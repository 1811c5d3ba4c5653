/-
# `Divergence.Proofs.DomainText` — every domain tree has texts that are read as it

A domain tree is written with each of its domains as a list in brackets
(`text`).  Its other texts (`Spelled`) leave off the brackets of lists that are
not empty and have blanks around values, lists and subtrees.  Besides, closing
parentheses may be missing at the end of a text.  All of these are read as the
tree, if no domain of it repeats a value and every value is one that can be read
(`expressible`).

The reader takes a text apart around its first group, then, for a dictionary, at a
colon, and goes on with the parts.  What is missing at the end of a text is missing
at the end of its last part, so the induction on the tree is over texts from
which any number of closing parentheses has been dropped (`Spelled.reads`).
-/
import Divergence.Binary64.Shortest
import Divergence.Proofs.ListDomains
import Mathlib.Algebra.GroupWithZero.Nat

namespace Divergence

open Divergence.Text SimpleDomain

/-! ## Writing scalars -/

/-- A truth value is written as a digit. -/
def boolText (b : Bool) : List Char :=
  if b then ['1'] else ['0']

theorem ofLiteral?_ofInt {i : Int} (h : fitsInt64 i = true) :
    Scalar.ofLiteral? (ofInt i) = some i :=
  int64?_ofInt h

theorem ofLiteral?_text {x : Binary64} (hfinite : x.isFinite = true)
    (hread : Binary64.ofText? x.text = some x) : Scalar.ofLiteral? x.text = some x :=
  Option.filter_eq_some_iff.mpr ⟨hread, hfinite⟩

theorem ofLiteral?_boolText (b : Bool) : Scalar.ofLiteral? (boolText b) = some b := by
  cases b <;> decide

theorem ofLiteral?_ofNat {n : Nat} (h : n < 2 ^ 63) : Scalar.ofLiteral? (ofNat n) = some n := by
  have hfits : fitsInt64 n = true := by
    simp only [fitsInt64, Bool.and_eq_true, decide_eq_true_eq]
    omega
  have hwrite : ofInt n = ofNat n := by
    rw [ofInt, if_neg (by omega), Int.natAbs_natCast]
  change (int64? (ofNat n)).bind length? = some n
  rw [← hwrite, int64?_ofInt hfits, Option.bind_some, length?, if_pos (by omega),
    Int.toNat_natCast]

namespace DomainTree

variable {side : Side} {t : DomainTree} {s : List Char}

/-! ## Writing trees -/

/-- The text of one side of a tree, each domain a list in brackets. -/
def text (side : Side) : DomainTree → List Char
  | .int values => listText ofInt (values.on side)
  | .float values => listText Binary64.text (values.on side)
  | .bool values => listText boolText (values.on side)
  | .str _ lengths => listText ofNat (lengths.on side)
  | .list element lengths | .tuple element lengths | .set element lengths =>
    listText ofNat (lengths.on side) ++ '(' :: (element.text side ++ [')'])
  | .dict key value lengths =>
    listText ofNat (lengths.on side) ++ '(' :: ((key.text side ++ ':' :: value.text side) ++ [')'])

/-- The texts of one side of a tree: brackets may be left off where there is a value, and
blanks may stand around values, lists and subtrees. -/
def Spelled (side : Side) : DomainTree → List Char → Prop
  | .int values, s => ListText ofInt (values.on side) s
  | .float values, s => ListText Binary64.text (values.on side) s
  | .bool values, s => ListText boolText (values.on side) s
  | .str _ lengths, s => ListText ofNat (lengths.on side) s
  | .list element lengths, s | .tuple element lengths, s | .set element lengths, s =>
    ∃ counts inner, ListText ofNat (lengths.on side) counts ∧ element.Spelled side inner ∧
      Padded (counts ++ '(' :: (inner ++ [')'])) s
  | .dict key value lengths, s =>
    ∃ counts k v, ListText ofNat (lengths.on side) counts ∧ key.Spelled side k ∧
      value.Spelled side v ∧ Padded (counts ++ '(' :: ((k ++ ':' :: v) ++ [')'])) s

theorem spelled_text (side : Side) (t : DomainTree) : t.Spelled side (t.text side) := by
  induction t with
  | int values => exact listText_self ofInt _
  | float values => exact listText_self Binary64.text _
  | bool values => exact listText_self boolText _
  | str alphabet lengths => exact listText_self ofNat _
  | list element lengths ih | tuple element lengths ih | set element lengths ih =>
    exact ⟨_, _, listText_self ofNat _, ih, padded_self _⟩
  | dict key value lengths ihk ihv =>
    exact ⟨_, _, _, listText_self ofNat _, ihk, ihv, padded_self _⟩

/-- Domains without repetitions, of values that are read back from their texts. -/
def expressible : DomainProperty where
  int values := Unrepeated values ∧ ∀ i ∈ values, fitsInt64 i = true
  float values := Unrepeated values ∧
    ∀ x ∈ values, x.isFinite = true ∧ Binary64.ofText? x.text = some x
  bool values := Unrepeated values
  length values := Unrepeated values ∧ ∀ n ∈ values, n < 2 ^ 63

/-- Values that are read back from their texts, none of them twice. -/
def ReadBack {α : Type} [Scalar α] (write : α → List Char) (values : List α) : Prop :=
  Unrepeated values ∧ ∀ v ∈ values, Scalar.ofLiteral? (write v) = some v

theorem readBack_int {values : List Int} (h : expressible.int values) : ReadBack ofInt values :=
  ⟨h.1, fun i hi => ofLiteral?_ofInt (h.2 i hi)⟩

theorem readBack_float {values : List Binary64} (h : expressible.float values) :
    ReadBack Binary64.text values :=
  ⟨h.1, fun x hx => ofLiteral?_text (h.2 x hx).1 (h.2 x hx).2⟩

theorem readBack_bool {values : List Bool} (h : expressible.bool values) :
    ReadBack boolText values :=
  ⟨h, fun b _ => ofLiteral?_boolText b⟩

theorem readBack_length {values : List Nat} (h : expressible.length values) :
    ReadBack ofNat values :=
  ⟨h.1, fun n hn => ofLiteral?_ofNat (h.2 n hn)⟩

/-! ## Reading trees -/

section Lists

variable {α : Type} [Scalar α] [PlainScalar α] {write : α → List Char} {values : List α}

theorem whole_of_listText (h : ListText write values s) (hvalues : ReadBack write values) :
    Whole s :=
  have ⟨hnone, hsolid⟩ := h.exposed hvalues.2
  whole_of_not_mem hnone hsolid

/-- A text of a list is read as its values, whatever is dropped at its end. -/
theorem read_of_listText (h : ListText write values s) (hvalues : ReadBack write values)
    {k : Nat} {s' : List Char} (hs : trim s' = trim (dropClosers k s)) :
    SimpleDomain.read α s' = .ok values := by
  have hnone := (h.exposed hvalues.2).1 ')' (by decide)
  exact h.read_eq_ok hvalues.2 hvalues.1 (hs.trans (trim_dropClosers hnone k))

end Lists

theorem Spelled.whole (h : t.Spelled side s) (ht : t.Everywhere expressible side) : Whole s := by
  induction t generalizing s with
  | int values => exact whole_of_listText h (readBack_int ht)
  | float values => exact whole_of_listText h (readBack_float ht)
  | bool values => exact whole_of_listText h (readBack_bool ht)
  | str alphabet lengths => exact whole_of_listText h (readBack_length ht)
  | list element lengths ih | tuple element lengths ih | set element lengths ih =>
    obtain ⟨counts, inner, hcounts, hinner, hs⟩ := h
    have hwhole := whole_of_listText hcounts (readBack_length ht.2)
    exact (hwhole.group (ih hinner ht.1).balanced).padded hs
  | dict key value lengths ihk ihv =>
    obtain ⟨counts, k, v, hcounts, hk, hv, hs⟩ := h
    have hwhole := whole_of_listText hcounts (readBack_length ht.2.2)
    exact (hwhole.group ((ihk hk ht.1).balanced_pair (ihv hv ht.2.1))).padded hs

/-- The text of a container comes apart into its counts and what it contains. -/
theorem exists_splitContainer {lengths : List Nat} {counts inner s' : List Char}
    (hcounts : ListText ofNat lengths counts) (hlengths : ReadBack ofNat lengths)
    (hinner : Balanced inner) (hsolid : Solid inner)
    (hs : Padded (counts ++ '(' :: (inner ++ [')'])) s) {k : Nat}
    (hs' : trim s' = trim (dropClosers k s)) :
    ∃ g, splitContainer s' = .ok g ∧ SimpleDomain.read Nat g.head = .ok lengths ∧
      Shortened inner g.inner := by
  obtain ⟨hnone, hsolid'⟩ := hcounts.exposed hlengths.2
  obtain ⟨y, hy, hshort⟩ := splitGroup_dropClosers (hnone '(' (by decide))
    hsolid'.allBlank_eq_false hinner hs k
  refine ⟨⟨trimStart counts, y⟩, ?_, ?_, hshort⟩
  · have hhead : allBlank (trimStart counts) = false := by
      rw [← allBlank_trim, trim_trimStart, allBlank_trim, hsolid'.allBlank_eq_false]
    have hblank : allBlank y = false := (hshort.solid hsolid).allBlank_eq_false
    rw [splitContainer]
    simp only [hs', hy, hhead, hblank, Bool.false_eq_true, if_false]
  · exact hcounts.read_eq_ok hlengths.2 hlengths.1 (trim_trimStart counts)

/-- What a dictionary contains comes apart into its keys and its values. -/
theorem exists_splitEntry {k v y : List Char} (hk : Whole k) (hv : Whole v)
    (hy : Shortened (k ++ ':' :: v) y) :
    ∃ v', splitEntry y = .ok (k, v') ∧ Shortened v v' := by
  obtain ⟨v', hv', hshort⟩ := splitTopLevel_shortened hk hv.solid hy
  refine ⟨v', ?_, hshort⟩
  rw [splitEntry, hv']
  simp only [hk.solid.allBlank_eq_false, (hshort.solid hv.solid).allBlank_eq_false, Bool.or_self,
    Bool.false_eq_true, if_false]

/-- A text of a tree is read as the tree, whatever is dropped at its end. -/
theorem Spelled.reads (h : t.Spelled side s) (ht : t.Everywhere expressible side) {k : Nat}
    {s' : List Char} (hs' : trim s' = trim (dropClosers k s)) : t.Reads side s' := by
  induction t generalizing s k s' with
  | int values => exact read_of_listText h (readBack_int ht) hs'
  | float values => exact read_of_listText h (readBack_float ht) hs'
  | bool values => exact read_of_listText h (readBack_bool ht) hs'
  | str alphabet lengths => exact read_of_listText h (readBack_length ht) hs'
  | list element lengths ih | tuple element lengths ih | set element lengths ih =>
    obtain ⟨counts, inner, hcounts, hinner, hs⟩ := h
    have hwhole := hinner.whole ht.1
    obtain ⟨g, hg, hlengths, hshort⟩ := exists_splitContainer hcounts (readBack_length ht.2)
      hwhole.balanced hwhole.solid hs hs'
    obtain ⟨j, hj⟩ := hshort.trim_eq
    exact ⟨g, hg, ih hinner ht.1 hj, hlengths⟩
  | dict key value lengths ihk ihv =>
    obtain ⟨counts, kt, vt, hcounts, hk, hv, hs⟩ := h
    have hkey := hk.whole ht.1
    have hvalue := hv.whole ht.2.1
    have hsolid : Solid (kt ++ ':' :: vt) := ⟨':', by simp, by decide, by decide⟩
    obtain ⟨g, hg, hlengths, hshort⟩ := exists_splitContainer hcounts (readBack_length ht.2.2)
      (hkey.balanced_pair hvalue) hsolid hs hs'
    obtain ⟨v', hentry, hshort'⟩ := exists_splitEntry hkey hvalue hshort
    obtain ⟨j, hj⟩ := hshort'.trim_eq
    -- the keys have the colon after them, so nothing was dropped there
    have hkeys : key.Reads side kt := ihk (k := 0) hk ht.1 rfl
    exact ⟨g, kt, v', hg, hentry, hkeys, ihv hv ht.2.1 hj, hlengths⟩

/-- Every tree with domains that can be expressed is read from its text.  It is read as well
from every other spelling on either side, whatever the other side's is: with blanks around
values, lists and subtrees, without the brackets of lists that are not empty, and without
closing parentheses at the end. -/
theorem read_of_spelled (t : DomainTree) (ht : ∀ side, t.Everywhere expressible side) :
    read t.shape (t.text .exhaustive) (t.text .random) = .ok t ∧
    ∀ x r x' r' m n, t.Spelled .exhaustive x → t.Spelled .random r →
      Padded (dropClosers m x) x' → Padded (dropClosers n r) r' →
        read t.shape x' r' = .ok t := by
  have hread {x r x' r' : List Char} {m n : Nat} (hx : t.Spelled .exhaustive x)
      (hr : t.Spelled .random r) (hx' : Padded (dropClosers m x) x')
      (hr' : Padded (dropClosers n r) r') : read t.shape x' r' = .ok t :=
    read_eq_ok.mpr ⟨rfl, hx.reads (ht .exhaustive) hx'.trim_eq, hr.reads (ht .random) hr'.trim_eq⟩
  refine ⟨?_, fun x r x' r' m n hx hr hx' hr' => hread hx hr hx' hr'⟩
  exact hread (m := 0) (n := 0) (spelled_text .exhaustive t) (spelled_text .random t)
    (padded_self _) (padded_self _)

/-- Dictionaries from pairs of integers to lists of halves. -/
def halves : DomainTree :=
  .dict (.tuple (.int ⟨[1], [-2]⟩) ⟨[1], [2]⟩) (.list (.float ⟨[⟨0x3FE0000000000000⟩], []⟩)
    ⟨[0, 3], [1]⟩) ⟨[0, 1], [2]⟩

theorem read_of_spelled_halves :
    (∀ side, halves.Everywhere expressible side) ∧
    read halves.shape "[0,1]([1]([1]):[0,3]([0.5]))".toList "[2]([2]([-2]):[1]([]))".toList =
      .ok halves ∧
    read halves.shape "[0,1]([1]([1]):[0,3]([0.5]".toList " 2 ( 2(-2) : 1([]".toList =
      .ok halves := by
  have hhalf : Binary64.ofText? (Binary64.text ⟨0x3FE0000000000000⟩) =
      some ⟨0x3FE0000000000000⟩ := by decide +kernel
  have hfinite : Binary64.isFinite ⟨0x3FE0000000000000⟩ = true := by decide
  have hdomains : ∀ side, halves.Everywhere expressible side := by
    intro side
    cases side <;>
      simp [halves, Everywhere, expressible, Unrepeated, Domains.on, Scalar.same, hhalf, hfinite,
        fitsInt64]
  have hexhaustive : halves.text .exhaustive = "[0,1]([1]([1]):[0,3]([0.5]))".toList := by
    decide +kernel
  have hrandom : halves.text .random = "[2]([2]([-2]):[1]([]))".toList := by decide +kernel
  have hbare (n : Nat) (a b : List Char) (ha : allBlank a = true) (hb : allBlank b = true) :
      ListText ofNat [n] (a ++ ofNat n ++ b) :=
    ⟨[a ++ ofNat n ++ b], .cons ⟨a, b, ha, hb, rfl⟩ .nil,
      .inr ⟨List.cons_ne_nil _ _, List.intercalate_singleton.symm⟩⟩
  have hspelled : halves.Spelled .random " 2 ( 2(-2) : 1([]))".toList := by
    refine ⟨" 2 ".toList, " 2(-2) ".toList, " 1([])".toList, hbare 2 [' '] [' '] rfl rfl,
      ⟨" 2".toList, "-2".toList, hbare 2 [' '] [] rfl rfl, ?_, [], [' '], rfl, rfl, rfl⟩,
      ⟨" 1".toList, "[]".toList, hbare 1 [' '] [] rfl rfl, listText_self _ [], padded_self _⟩,
      padded_self _⟩
    exact ⟨["-2".toList], .cons (padded_self _) .nil, .inr ⟨List.cons_ne_nil _ _, rfl⟩⟩
  obtain ⟨htext, hspellings⟩ := read_of_spelled halves hdomains
  refine ⟨hdomains, ?_, ?_⟩
  · rw [← hexhaustive, ← hrandom]
    exact htext
  · have hdrop : dropClosers 2 (halves.text .exhaustive) =
        "[0,1]([1]([1]):[0,3]([0.5]".toList := by
      rw [hexhaustive]
      decide +kernel
    exact hspellings _ _ _ _ 2 2 (spelled_text .exhaustive halves) hspelled
      (hdrop ▸ padded_self _) (padded_self _)

end DomainTree

end Divergence
