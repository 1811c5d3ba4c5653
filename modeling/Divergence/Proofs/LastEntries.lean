/-
# `Divergence.Proofs.LastEntries` — what a set or a dictionary is made of

A set is determined by which elements it is made from, and a dictionary by what its entries say
of each key, where the last entry with a key counts (`canonical_construction`).

For sets that is `Ordered.byKey` on elements that are their own keys.  For dictionaries two steps
have to keep the last entry of every key: the sort, because it is stable and so keeps the entries
with one key in their order (`filter_mergeSort`), and the pass that drops entries, because it
drops none but those with an equal successor (`lastValue?_dropEqual`).  What comes out has each
key once, so that there the last entry with a key is the only one.
-/
import Divergence.Proofs.Canonical
import Divergence.Proofs.Orders

namespace Divergence

/-! ## The last entry with a key -/

section LastValue

variable {κ ν : Type} [BEq κ]

/-- What entries say of a key: the value of the last one that has it. -/
def lastValue? (entries : List (κ × ν)) (k : κ) : Option ν :=
  ((entries.filter fun e => e.1 == k).getLast?).map Prod.snd

/-- Later entries override earlier ones. -/
theorem lastValue?_append (as bs : List (κ × ν)) (k : κ) :
    lastValue? (as ++ bs) k = (lastValue? bs k).or (lastValue? as k) := by
  rw [lastValue?, List.filter_append, List.getLast?_append, Option.map_or]
  rfl

theorem lastValue?_cons (e : κ × ν) (entries : List (κ × ν)) (k : κ) :
    lastValue? (e :: entries) k = (lastValue? entries k).or (lastValue? [e] k) :=
  lastValue?_append [e] entries k

variable [LawfulBEq κ]

theorem lastValue?_eq_none {entries : List (κ × ν)} {k : κ} :
    lastValue? entries k = none ↔ k ∉ entries.map Prod.fst := by
  rw [lastValue?, Option.map_eq_none_iff, List.getLast?_eq_none_iff, List.filter_eq_nil_iff,
    List.mem_map, not_exists]
  simp only [beq_iff_eq, not_and]

theorem lastValue?_eq_some {entries : List (κ × ν)} {k : κ} {v : ν} :
    lastValue? entries k = some v ↔
      ∃ before after, entries = before ++ (k, v) :: after ∧ k ∉ after.map Prod.fst := by
  constructor
  · intro h
    obtain ⟨e, he, rfl⟩ := Option.map_eq_some_iff.mp h
    obtain ⟨found, hfound⟩ := List.getLast?_eq_some_iff.mp he
    obtain ⟨before, rest, rfl, -, hrest⟩ := List.filter_eq_append_iff.mp hfound
    obtain ⟨skipped, after, rfl, -, hkey, hafter⟩ := List.filter_eq_cons_iff.mp hrest
    obtain rfl : e.1 = k := eq_of_beq hkey
    refine ⟨before ++ skipped, after, (List.append_assoc _ _ _).symm, ?_⟩
    rw [← lastValue?_eq_none, lastValue?, hafter]
    rfl
  · rintro ⟨before, after, rfl, hafter⟩
    have hnone : lastValue? after k = none := lastValue?_eq_none.mpr hafter
    rw [lastValue?_append, lastValue?_cons, hnone, Option.none_or]
    simp [lastValue?]

end LastValue

namespace Ordered

/-! ## What stays -/

variable {α κ ν : Type} {cmp : κ → κ → Ordering} [Std.TransCmp cmp]

/-- Entries with one key come out of the sort in the order in which they went in. -/
theorem filter_mergeSort {key : α → κ} {p : α → Bool}
    (hp : ∀ a b, p a → p b → cmp (key a) (key b) = .eq) (entries : List α) :
    (entries.mergeSort fun a b => (cmp (key a) (key b)).isLE).filter p = entries.filter p := by
  have hsorted : (entries.filter p).Pairwise fun a b => (cmp (key a) (key b)).isLE := by
    refine List.pairwise_of_forall_mem_list fun a ha b hb => ?_
    rw [hp a b (List.mem_filter.mp ha).2 (List.mem_filter.mp hb).2]
    rfl
  have hsub : (entries.filter p).Sublist
      (entries.mergeSort fun a b => (cmp (key a) (key b)).isLE) :=
    List.sublist_mergeSort (fun a b c => Std.TransCmp.isLE_trans)
      (fun a b => isLE_or_isLE cmp (key a) (key b)) hsorted List.filter_sublist
  have hperm := (List.mergeSort_perm entries fun a b => (cmp (key a) (key b)).isLE).filter p
  have hkept : ((entries.filter p).filter p) = entries.filter p :=
    List.filter_eq_self.mpr fun a ha => (List.mem_filter.mp ha).2
  have hboth := hsub.filter p
  rw [hkept] at hboth
  exact (hboth.eq_of_length_le (Nat.le_of_eq hperm.length_eq)).symm

variable [BEq κ] [LawfulBEq κ] [Std.LawfulEqCmp cmp]

theorem lastValue?_mergeSort (entries : List (κ × ν)) (k : κ) :
    lastValue? (entries.mergeSort fun a b => (cmp a.1 b.1).isLE) k = lastValue? entries k := by
  have hequal : ∀ a b : κ × ν, a.1 == k → b.1 == k → cmp a.1 b.1 = .eq := by
    intro a b ha hb
    rw [eq_of_beq ha, eq_of_beq hb]
    exact Std.ReflCmp.compare_self
  rw [lastValue?, lastValue?, filter_mergeSort hequal]

omit [Std.TransCmp cmp] in
/-- No entry is dropped that is the last one with its key. -/
theorem lastValue?_dropEqual (entries : List (κ × ν)) (k : κ) :
    lastValue? (dropEqual Prod.fst cmp entries) k = lastValue? entries k := by
  fun_induction dropEqual Prod.fst cmp entries with
  | case1 => rfl
  | case2 e => rfl
  | case3 a b rest heq ih =>
    have hkey : a.1 = b.1 := Std.LawfulEqCmp.eq_of_compare (eq_of_beq heq)
    rw [ih, lastValue?_cons a]
    cases hlast : lastValue? (b :: rest) k with
    | some v => rfl
    | none =>
      -- then the entry dropped does not have the key either
      rw [Option.none_or]
      refine (lastValue?_eq_none.mpr fun hmem => lastValue?_eq_none.mp hlast ?_).symm
      rw [List.map_singleton, List.mem_singleton] at hmem
      rw [hmem, hkey, List.map_cons]
      exact List.mem_cons_self
  | case4 a b rest _ ih => rw [lastValue?_cons, ih, ← lastValue?_cons]

theorem lastValue?_byKey (entries : List (κ × ν)) (k : κ) :
    lastValue? (byKey Prod.fst cmp entries) k = lastValue? entries k := by
  rw [byKey, lastValue?_dropEqual, lastValue?_mergeSort]

omit [Std.LawfulEqCmp cmp] in
/-- In a canonical list the last entry with a key is the only one. -/
theorem Increasing.mem_iff_lastValue? {entries : List (κ × ν)}
    (h : Increasing Prod.fst cmp entries) {k : κ} {v : ν} :
    (k, v) ∈ entries ↔ lastValue? entries k = some v := by
  constructor
  · intro hmem
    obtain ⟨before, after, rfl⟩ := List.append_of_mem hmem
    refine lastValue?_eq_some.mpr ⟨before, after, rfl, ?_⟩
    have hnodup := nodup_keys h
    rw [List.map_append, List.map_cons] at hnodup
    exact (List.nodup_cons.mp hnodup.of_append_right).1
  · intro hlast
    obtain ⟨before, after, rfl, -⟩ := lastValue?_eq_some.mp hlast
    exact List.mem_append_right before List.mem_cons_self

theorem mem_byKey_iff {entries : List (κ × ν)} {k : κ} {v : ν} :
    (k, v) ∈ byKey Prod.fst cmp entries ↔ lastValue? entries k = some v := by
  rw [(increasing_byKey entries).mem_iff_lastValue?, lastValue?_byKey]

theorem mem_keys_byKey {entries : List (κ × ν)} {k : κ} :
    k ∈ (byKey Prod.fst cmp entries).map Prod.fst ↔ k ∈ entries.map Prod.fst := by
  rw [← not_iff_not, ← lastValue?_eq_none, ← lastValue?_eq_none, lastValue?_byKey]

/-- Of appended entries the canonical form has those of the later ones, and those of the earlier
ones whose keys are new. -/
theorem mem_byKey_append {as bs : List (κ × ν)} {k : κ} {v : ν} :
    (k, v) ∈ byKey Prod.fst cmp (as ++ bs) ↔
      (k, v) ∈ byKey Prod.fst cmp bs ∨
        k ∉ (byKey Prod.fst cmp bs).map Prod.fst ∧ (k, v) ∈ byKey Prod.fst cmp as := by
  rw [mem_byKey_iff, mem_byKey_iff, mem_byKey_iff, mem_keys_byKey, ← lastValue?_eq_none,
    lastValue?_append, Option.or_eq_some_iff]

/-- Entries have one canonical form if they say the same of every key. -/
theorem byKey_eq_iff {as bs : List (κ × ν)} :
    byKey Prod.fst cmp as = byKey Prod.fst cmp bs ↔ ∀ k, lastValue? as k = lastValue? bs k := by
  constructor
  · intro h k
    calc lastValue? as k
        = lastValue? (byKey Prod.fst cmp as) k := (lastValue?_byKey as k).symm
      _ = lastValue? (byKey Prod.fst cmp bs) k := by rw [h]
      _ = lastValue? bs k := lastValue?_byKey bs k
  · intro h
    refine eq_of_mem_iff (increasing_byKey as) (increasing_byKey bs) fun e => ?_
    rw [mem_byKey_iff, mem_byKey_iff, h]

omit [BEq κ] [LawfulBEq κ] in
/-- Elements have one canonical form if they are the same, in any order and however often. -/
theorem elements_eq_iff {xs ys : List κ} :
    elements cmp xs = elements cmp ys ↔ ∀ x, x ∈ xs ↔ x ∈ ys := by
  constructor
  · intro h x
    calc x ∈ xs
        ↔ x ∈ elements cmp xs := mem_elements.symm
      _ ↔ x ∈ elements cmp ys := by rw [h]
      _ ↔ x ∈ ys := mem_elements
  · intro h
    refine eq_of_mem_iff (increasing_byKey xs) (increasing_byKey ys) fun x => ?_
    exact mem_elements.trans ((h x).trans mem_elements.symm)

end Ordered

namespace Value

open Ordered

/-- A set has the values that it is made of in strictly increasing order, and is determined by
which they are.  A dictionary has the keys of its entries in strictly increasing order, each with
the value of the last entry that has it; entries that are appended override those before them,
and two lists make one dictionary if they say the same of every key.  Made from its own contents,
a set or a dictionary is what it was. -/
theorem canonical_construction :
    (∀ xs, ∃ es, ofElements xs = .set es ∧ Increasing id cmp es ∧ (∀ x, x ∈ es ↔ x ∈ xs) ∧
      ofElements es = .set es) ∧
    (∀ xs ys, ofElements xs = ofElements ys ↔ ∀ x, x ∈ xs ↔ x ∈ ys) ∧
    (∀ entries, ∃ es, ofEntries entries = .dict es ∧ Increasing Prod.fst cmp es ∧
      (∀ k, k ∈ es.map Prod.fst ↔ k ∈ entries.map Prod.fst) ∧
      (∀ k v, (k, v) ∈ es ↔
        ∃ before after, entries = before ++ (k, v) :: after ∧ k ∉ after.map Prod.fst) ∧
      ofEntries es = .dict es) ∧
    (∀ as bs, ∃ ds es both, ofEntries as = .dict ds ∧ ofEntries bs = .dict es ∧
      ofEntries (as ++ bs) = .dict both ∧
      ∀ k v, (k, v) ∈ both ↔ (k, v) ∈ es ∨ k ∉ es.map Prod.fst ∧ (k, v) ∈ ds) ∧
    ∀ as bs, ofEntries as = ofEntries bs ↔ ∀ k, lastValue? as k = lastValue? bs k := by
  refine ⟨fun xs => ?_, fun xs ys => ?_, fun entries => ?_, fun as bs => ?_, fun as bs => ?_⟩
  · have hinc : Increasing id cmp (elements cmp xs) := increasing_byKey xs
    exact ⟨_, rfl, hinc, fun x => mem_elements, congrArg Value.set (byKey_eq_self hinc)⟩
  · rw [ofElements, ofElements, Value.set.injEq, elements_eq_iff]
  · have hinc : Increasing Prod.fst cmp (byKey Prod.fst cmp entries) := increasing_byKey entries
    refine ⟨_, rfl, hinc, fun k => mem_keys_byKey, fun k v => ?_,
      congrArg Value.dict (byKey_eq_self hinc)⟩
    rw [mem_byKey_iff, lastValue?_eq_some]
  · exact ⟨_, _, _, rfl, rfl, rfl, fun k v => mem_byKey_append⟩
  · rw [ofEntries, ofEntries, Value.dict.injEq, byKey_eq_iff]

/-- Two entries with one key around one with another. -/
example : ofEntries [(.int 1, .bool false), (.int 0, .bool false), (.int 1, .bool true)] =
    .dict [(.int 0, .bool false), (.int 1, .bool true)] := by
  cbv

end Value

end Divergence
