/-
# `Divergence.Proofs.Denotation` — enumeration lists what a tree denotes

`Denotes` says which values a domain tree stands for, without saying how they
are found: scalars of the domain, sequences of a length over what the element
tree denotes, and canonical sets and dictionaries of a size.  The enumeration
lists each of these values once and nothing else, provided that no domain and
no alphabet repeats an entry.

Sets and dictionaries carry the argument.  They are canonical forms of rows
that choose from the element or key values in the order of those, so two
chosen rows with one canonical form hold the same entries, and then they are
the same row.  That a set has the size asked for needs the element values to
be distinct, which is why both laws go through the tree together.
-/
import Divergence.Enumeration.Values
import Divergence.Proofs.Canonical
import Divergence.Proofs.Orders
import Divergence.Proofs.Sequences
import Mathlib.Data.List.Perm.Subperm

namespace Divergence

open Enumeration Ordered

/-! ## Rows of each of several lengths -/

theorem mem_flatMap_power {α : Type} {items : List α} {lengths : List Nat} {row : List α} :
    row ∈ lengths.flatMap (power items) ↔
      row.length ∈ lengths ∧ ∀ x ∈ row, x ∈ items := by
  simp only [List.mem_flatMap, mem_power]
  constructor
  · rintro ⟨n, hn, rfl, hrow⟩
    exact ⟨hn, hrow⟩
  · rintro ⟨hn, hrow⟩
    exact ⟨row.length, hn, rfl, hrow⟩

theorem mem_flatMap_combinations {α : Type} {items : List α} {lengths : List Nat}
    {row : List α} :
    row ∈ lengths.flatMap (combinations items) ↔ row.Sublist items ∧ row.length ∈ lengths := by
  simp only [List.mem_flatMap, combinations_eq_choices, mem_choices]
  constructor
  · rintro ⟨n, hn, hsub, rfl⟩
    exact ⟨hsub, hn⟩
  · rintro ⟨hsub, hn⟩
    exact ⟨row.length, hn, hsub, rfl⟩

/-- Rows of different lengths are different, so it is enough that none repeats within a
length. -/
theorem nodup_flatMap_rows {α : Type} {rows : Nat → List (List α)} {lengths : List Nat}
    (hlengths : lengths.Nodup) (hrows : ∀ n, (rows n).Nodup)
    (hlen : ∀ n, ∀ row ∈ rows n, row.length = n) : (lengths.flatMap rows).Nodup := by
  refine List.nodup_flatMap.mpr ⟨fun n _ => hrows n, ?_⟩
  refine hlengths.imp fun {m n} hmn row hm hn => hmn ?_
  rw [← hlen m row hm, hlen n row hn]

theorem nodup_flatMap_power {α : Type} {items : List α} {lengths : List Nat}
    (hitems : items.Nodup) (hlengths : lengths.Nodup) :
    (lengths.flatMap (power items)).Nodup :=
  nodup_flatMap_rows hlengths (nodup_power hitems) fun _ _ h => (mem_power.mp h).1

theorem nodup_flatMap_combinations {α : Type} {items : List α} {lengths : List Nat}
    (hitems : items.Nodup) (hlengths : lengths.Nodup) :
    (lengths.flatMap (combinations items)).Nodup := by
  refine nodup_flatMap_rows hlengths (fun n => ?_) fun n row h => ?_
  · rw [combinations_eq_choices]
    exact nodup_choices hitems n
  · rw [combinations_eq_choices] at h
    exact (mem_choices.mp h).2

/-! ## Sets -/

theorem elements_perm {chosen items : List Value} (hitems : items.Nodup)
    (hsub : chosen.Sublist items) : (elements Value.cmp chosen).Perm chosen :=
  byKey_perm (by rw [List.map_id]; exact hsub.nodup hitems)

/-- A set that a choice gives is canonical and as large as the choice; and every canonical
set of the items comes from a choice. -/
theorem mem_map_ofElements {items : List Value} {lengths : List Nat} (hitems : items.Nodup)
    {v : Value} :
    v ∈ (lengths.flatMap (combinations items)).map Value.ofElements ↔
      ∃ es, v = .set es ∧ es.length ∈ lengths ∧ Increasing id Value.cmp es ∧
        ∀ x ∈ es, x ∈ items := by
  simp only [List.mem_map, mem_flatMap_combinations]
  constructor
  · rintro ⟨chosen, ⟨hsub, hlen⟩, rfl⟩
    have hperm := elements_perm hitems hsub
    exact ⟨_, rfl, hperm.length_eq ▸ hlen, increasing_byKey chosen,
      fun x hx => hsub.subset (hperm.subset hx)⟩
  · rintro ⟨es, rfl, hlen, hinc, hmem⟩
    have hnodup : es.Nodup := by simpa using nodup_keys hinc
    obtain ⟨chosen, hperm, hsub⟩ := List.subperm_of_subset hnodup hmem
    refine ⟨chosen, ⟨hsub, hperm.length_eq ▸ hlen⟩, ?_⟩
    rw [Value.ofElements, elements, byKey_eq_of_perm hinc hperm]

theorem nodup_map_ofElements {items : List Value} {lengths : List Nat} (hitems : items.Nodup)
    (hlengths : lengths.Nodup) :
    ((lengths.flatMap (combinations items)).map Value.ofElements).Nodup := by
  refine List.Nodup.map_on ?_ (nodup_flatMap_combinations hitems hlengths)
  intro c hc c' hc' heq
  have hsub := (mem_flatMap_combinations.mp hc).1
  have hsub' := (mem_flatMap_combinations.mp hc').1
  have heq' : elements Value.cmp c = elements Value.cmp c' := Value.set.inj heq
  have hperm : c.Perm c' :=
    (elements_perm hitems hsub).symm.trans (heq' ▸ elements_perm hitems hsub')
  exact (hitems.perm_iff_eq_of_sublist hsub hsub').mp hperm

/-! ## Dictionaries -/

/-- The rows of `n` entries whose keys are a choice of the keys. -/
def entryRows (keys values : List Value) (n : Nat) : List (List (Value × Value)) :=
  (combinations keys n).flatMap fun chosen => (power values n).map chosen.zip

theorem dictionaries_eq_map (keys values : List Value) (n : Nat) :
    DomainTree.dictionaries keys values n = (entryRows keys values n).map Value.ofEntries := by
  simp only [DomainTree.dictionaries, entryRows, List.map_flatMap, List.map_map]
  rfl

theorem mem_entryRows {keys values : List Value} {n : Nat} {es : List (Value × Value)} :
    es ∈ entryRows keys values n ↔
      (es.map Prod.fst).Sublist keys ∧ es.length = n ∧ ∀ e ∈ es, e.2 ∈ values := by
  simp only [entryRows, List.mem_flatMap, List.mem_map, combinations_eq_choices, mem_choices,
    mem_power]
  constructor
  · rintro ⟨chosen, ⟨hsub, hlen⟩, assigned, ⟨hlen', hmem⟩, rfl⟩
    refine ⟨?_, by rw [List.length_zip, hlen, hlen', Nat.min_self], fun e he => ?_⟩
    · rw [List.map_fst_zip (by omega)]
      exact hsub
    · exact hmem e.2 (List.of_mem_zip he).2
  · rintro ⟨hsub, hlen, hmem⟩
    refine ⟨es.map Prod.fst, ⟨hsub, by rw [List.length_map, hlen]⟩, es.map Prod.snd,
      ⟨by rw [List.length_map, hlen], List.forall_mem_map.mpr hmem⟩, ?_⟩
    exact (List.zip_of_prod rfl rfl).symm

theorem nodup_entryRows {keys values : List Value} (hkeys : keys.Nodup) (hvalues : values.Nodup)
    (n : Nat) : (entryRows keys values n).Nodup := by
  have hlen {chosen assigned : List Value} (hc : chosen ∈ combinations keys n)
      (ha : assigned ∈ power values n) : chosen.length = assigned.length := by
    rw [combinations_eq_choices] at hc
    rw [(mem_choices.mp hc).2, (mem_power.mp ha).1]
  refine List.nodup_flatMap.mpr ⟨fun chosen hc => ?_, ?_⟩
  · refine List.Nodup.map_on (fun a ha a' ha' heq => ?_) (nodup_power hvalues n)
    rw [← List.map_snd_zip (hlen hc ha).ge, ← List.map_snd_zip (hlen hc ha').ge, heq]
  · have hchoices : (combinations keys n).Nodup := by
      rw [combinations_eq_choices]
      exact nodup_choices hkeys n
    refine hchoices.imp_of_mem fun {c c'} hc hc' hne es hes hes' => hne ?_
    obtain ⟨a, ha, rfl⟩ := List.mem_map.mp hes
    obtain ⟨a', ha', heq⟩ := List.mem_map.mp hes'
    rw [← List.map_fst_zip (hlen hc ha).le, ← List.map_fst_zip (hlen hc' ha').le, heq]

theorem byKey_entries_perm {keys : List Value} {es : List (Value × Value)} (hkeys : keys.Nodup)
    (hsub : (es.map Prod.fst).Sublist keys) : (byKey Prod.fst Value.cmp es).Perm es :=
  byKey_perm (hsub.nodup hkeys)

/-- Rows of the same entries with the same distinct keys are equal. -/
theorem eq_of_perm_of_keys {es es' : List (Value × Value)} (hperm : es.Perm es')
    (hkeys : es.map Prod.fst = es'.map Prod.fst) (hnodup : (es'.map Prod.fst).Nodup) :
    es = es' := by
  refine List.ext_getElem hperm.length_eq fun i hi hi' => ?_
  have hkey : es[i].1 = es'[i].1 := by
    have h := List.getElem_of_eq hkeys (by rw [List.length_map]; exact hi)
    rwa [List.getElem_map, List.getElem_map] at h
  exact List.inj_on_of_nodup_map hnodup (hperm.subset (List.getElem_mem hi))
    (List.getElem_mem hi') hkey

theorem ofEntries_inj {keys : List Value} {es es' : List (Value × Value)} (hkeys : keys.Nodup)
    (hsub : (es.map Prod.fst).Sublist keys) (hsub' : (es'.map Prod.fst).Sublist keys)
    (heq : Value.ofEntries es = Value.ofEntries es') : es = es' := by
  have heq' : byKey Prod.fst Value.cmp es = byKey Prod.fst Value.cmp es' := Value.dict.inj heq
  have hperm : es.Perm es' :=
    (byKey_entries_perm hkeys hsub).symm.trans (heq' ▸ byKey_entries_perm hkeys hsub')
  exact eq_of_perm_of_keys hperm
    ((hkeys.perm_iff_eq_of_sublist hsub hsub').mp (hperm.map _)) (hsub'.nodup hkeys)

theorem exists_perm_of_perm_map {α β : Type} {f : α → β} {bs : List β} {as : List α}
    (h : bs.Perm (as.map f)) : ∃ as' : List α, as'.map f = bs ∧ as'.Perm as := by
  have hcomp := congrFun (congrFun (List.eq_map_comp_perm f) bs) as
  obtain ⟨as', rfl, hperm⟩ := hcomp.symm.mp h
  exact ⟨as', rfl, hperm⟩

theorem mem_dictionaries {keys values : List Value} {lengths : List Nat} (hkeys : keys.Nodup)
    {v : Value} :
    v ∈ lengths.flatMap (DomainTree.dictionaries keys values) ↔
      ∃ es, v = .dict es ∧ es.length ∈ lengths ∧ Increasing Prod.fst Value.cmp es ∧
        ∀ e ∈ es, e.1 ∈ keys ∧ e.2 ∈ values := by
  simp only [List.mem_flatMap, dictionaries_eq_map, List.mem_map, mem_entryRows]
  constructor
  · rintro ⟨n, hn, es, ⟨hsub, rfl, hmem⟩, rfl⟩
    have hperm := byKey_entries_perm hkeys hsub
    refine ⟨_, rfl, hperm.length_eq ▸ hn, increasing_byKey es, fun e he => ?_⟩
    have he' : e ∈ es := hperm.subset he
    exact ⟨hsub.subset (List.mem_map_of_mem he'), hmem e he'⟩
  · rintro ⟨es, rfl, hlen, hinc, hmem⟩
    -- put the entries in the order in which the keys are enumerated
    obtain ⟨chosen, hperm, hsub⟩ := List.subperm_of_subset (nodup_keys hinc)
      (List.forall_mem_map.mpr fun e he => (hmem e he).1)
    obtain ⟨es', rfl, hperm'⟩ := exists_perm_of_perm_map hperm
    refine ⟨es.length, hlen, es', ⟨hsub, hperm'.length_eq, fun e he => ?_⟩, ?_⟩
    · exact (hmem e (hperm'.subset he)).2
    · rw [Value.ofEntries, byKey_eq_of_perm hinc hperm']

theorem nodup_dictionaries {keys values : List Value} {lengths : List Nat} (hkeys : keys.Nodup)
    (hvalues : values.Nodup) (hlengths : lengths.Nodup) :
    (lengths.flatMap (DomainTree.dictionaries keys values)).Nodup := by
  have hmap : lengths.flatMap (DomainTree.dictionaries keys values) =
      (lengths.flatMap (entryRows keys values)).map Value.ofEntries := by
    rw [List.map_flatMap]
    exact List.flatMap_congr fun n _ => dictionaries_eq_map keys values n
  have hsub {es : List (Value × Value)} (h : es ∈ lengths.flatMap (entryRows keys values)) :
      (es.map Prod.fst).Sublist keys := by
    obtain ⟨n, -, hes⟩ := List.mem_flatMap.mp h
    exact (mem_entryRows.mp hes).1
  rw [hmap]
  refine List.Nodup.map_on (fun es hes es' hes' => ofEntries_inj hkeys (hsub hes) (hsub hes')) ?_
  exact nodup_flatMap_rows hlengths (nodup_entryRows hkeys hvalues)
    fun n es hes => (mem_entryRows.mp hes).2.1

/-! ## Trees -/

namespace DomainTree

/-- The values that the exhaustive domains of a tree stand for. -/
inductive Denotes : DomainTree → Value → Prop
  | int {scalars : Domains Int} {i : Int} :
      i ∈ scalars.exhaustive → Denotes (.int scalars) (.int i)
  | float {scalars : Domains Binary64} {x : Binary64} :
      x ∈ scalars.exhaustive → Denotes (.float scalars) (.float x)
  | bool {scalars : Domains Bool} {b : Bool} :
      b ∈ scalars.exhaustive → Denotes (.bool scalars) (.bool b)
  | str {alphabet : List Char} {lengths : Domains Nat} {s : String} :
      s.length ∈ lengths.exhaustive → (∀ c ∈ s.toList, c ∈ alphabet) →
      Denotes (.str alphabet lengths) (.str s)
  | list {element : DomainTree} {lengths : Domains Nat} {items : List Value} :
      items.length ∈ lengths.exhaustive → (∀ x ∈ items, Denotes element x) →
      Denotes (.list element lengths) (.list items)
  | tuple {element : DomainTree} {lengths : Domains Nat} {items : List Value} :
      items.length ∈ lengths.exhaustive → (∀ x ∈ items, Denotes element x) →
      Denotes (.tuple element lengths) (.tuple items)
  | set {element : DomainTree} {lengths : Domains Nat} {elements : List Value} :
      elements.length ∈ lengths.exhaustive → Increasing id Value.cmp elements →
      (∀ x ∈ elements, Denotes element x) →
      Denotes (.set element lengths) (.set elements)
  | dict {key value : DomainTree} {lengths : Domains Nat} {entries : List (Value × Value)} :
      entries.length ∈ lengths.exhaustive → Increasing Prod.fst Value.cmp entries →
      (∀ e ∈ entries, Denotes key e.1) → (∀ e ∈ entries, Denotes value e.2) →
      Denotes (.dict key value lengths) (.dict entries)

/-- No exhaustive domain and no alphabet of the tree repeats an entry. -/
def Distinct : DomainTree → Prop
  | .int scalars => scalars.exhaustive.Nodup
  | .float scalars => scalars.exhaustive.Nodup
  | .bool scalars => scalars.exhaustive.Nodup
  | .str alphabet lengths => alphabet.Nodup ∧ lengths.exhaustive.Nodup
  | .list element lengths | .tuple element lengths | .set element lengths =>
    element.Distinct ∧ lengths.exhaustive.Nodup
  | .dict key value lengths => key.Distinct ∧ value.Distinct ∧ lengths.exhaustive.Nodup

instance decidableDistinct : (t : DomainTree) → Decidable t.Distinct
  | .int scalars => inferInstanceAs (Decidable scalars.exhaustive.Nodup)
  | .float scalars => inferInstanceAs (Decidable scalars.exhaustive.Nodup)
  | .bool scalars => inferInstanceAs (Decidable scalars.exhaustive.Nodup)
  | .str alphabet lengths =>
    inferInstanceAs (Decidable (alphabet.Nodup ∧ lengths.exhaustive.Nodup))
  | .list element lengths | .tuple element lengths | .set element lengths =>
    have := decidableDistinct element
    inferInstanceAs (Decidable (element.Distinct ∧ lengths.exhaustive.Nodup))
  | .dict key value lengths =>
    have := decidableDistinct key
    have := decidableDistinct value
    inferInstanceAs (Decidable (key.Distinct ∧ value.Distinct ∧ lengths.exhaustive.Nodup))

theorem denotes_int {scalars : Domains Int} {v : Value} :
    Denotes (.int scalars) v ↔ ∃ i, i ∈ scalars.exhaustive ∧ .int i = v := by
  constructor
  · intro hv
    cases hv with
    | int hi => exact ⟨_, hi, rfl⟩
  · rintro ⟨i, hi, rfl⟩
    exact .int hi

theorem denotes_float {scalars : Domains Binary64} {v : Value} :
    Denotes (.float scalars) v ↔ ∃ x, x ∈ scalars.exhaustive ∧ .float x = v := by
  constructor
  · intro hv
    cases hv with
    | float hx => exact ⟨_, hx, rfl⟩
  · rintro ⟨x, hx, rfl⟩
    exact .float hx

theorem denotes_bool {scalars : Domains Bool} {v : Value} :
    Denotes (.bool scalars) v ↔ ∃ b, b ∈ scalars.exhaustive ∧ .bool b = v := by
  constructor
  · intro hv
    cases hv with
    | bool hb => exact ⟨_, hb, rfl⟩
  · rintro ⟨b, hb, rfl⟩
    exact .bool hb

theorem denotes_str {alphabet : List Char} {lengths : Domains Nat} {v : Value} :
    Denotes (.str alphabet lengths) v ↔
      ∃ chars, (chars.length ∈ lengths.exhaustive ∧ ∀ c ∈ chars, c ∈ alphabet) ∧
        .str (String.ofList chars) = v := by
  constructor
  · intro hv
    cases hv with
    | @str _ _ s hlen hchars =>
      refine ⟨s.toList, ⟨?_, hchars⟩, ?_⟩
      · rwa [String.length_toList]
      · rw [String.ofList_toList]
  · rintro ⟨chars, ⟨hlen, hchars⟩, rfl⟩
    refine .str ?_ ?_
    · rwa [String.length_ofList]
    · rwa [String.toList_ofList]

variable {element key value : DomainTree} {lengths : Domains Nat} {v : Value}

theorem denotes_list :
    Denotes (.list element lengths) v ↔
      ∃ items, (items.length ∈ lengths.exhaustive ∧ ∀ x ∈ items, Denotes element x) ∧
        .list items = v := by
  constructor
  · intro hv
    cases hv with
    | list hlen hitems => exact ⟨_, ⟨hlen, hitems⟩, rfl⟩
  · rintro ⟨items, ⟨hlen, hitems⟩, rfl⟩
    exact .list hlen hitems

theorem denotes_tuple :
    Denotes (.tuple element lengths) v ↔
      ∃ items, (items.length ∈ lengths.exhaustive ∧ ∀ x ∈ items, Denotes element x) ∧
        .tuple items = v := by
  constructor
  · intro hv
    cases hv with
    | tuple hlen hitems => exact ⟨_, ⟨hlen, hitems⟩, rfl⟩
  · rintro ⟨items, ⟨hlen, hitems⟩, rfl⟩
    exact .tuple hlen hitems

theorem denotes_set :
    Denotes (.set element lengths) v ↔
      ∃ es, v = .set es ∧ es.length ∈ lengths.exhaustive ∧ Increasing id Value.cmp es ∧
        ∀ x ∈ es, Denotes element x := by
  constructor
  · intro hv
    cases hv with
    | set hlen hinc hes => exact ⟨_, rfl, hlen, hinc, hes⟩
  · rintro ⟨es, rfl, hlen, hinc, hes⟩
    exact .set hlen hinc hes

theorem denotes_dict :
    Denotes (.dict key value lengths) v ↔
      ∃ es, v = .dict es ∧ es.length ∈ lengths.exhaustive ∧ Increasing Prod.fst Value.cmp es ∧
        ∀ e ∈ es, Denotes key e.1 ∧ Denotes value e.2 := by
  constructor
  · intro hv
    cases hv with
    | dict hlen hinc hkeys hvalues =>
      exact ⟨_, rfl, hlen, hinc, fun e he => ⟨hkeys e he, hvalues e he⟩⟩
  · rintro ⟨es, rfl, hlen, hinc, hes⟩
    exact .dict hlen hinc (fun e he => (hes e he).1) fun e he => (hes e he).2

/-- Enumeration repeats nothing and lists exactly what the tree denotes, for trees that
repeat no entry.  The induction needs the first to count the elements of sets. -/
theorem values_nodup_and_mem (t : DomainTree) (h : t.Distinct) :
    t.values.Nodup ∧ ∀ v, v ∈ t.values ↔ t.Denotes v := by
  induction t with
  | int scalars =>
    refine ⟨h.map fun a b => Value.int.inj, fun v => ?_⟩
    rw [values, List.mem_map, denotes_int]
  | float scalars =>
    refine ⟨h.map fun a b => Value.float.inj, fun v => ?_⟩
    rw [values, List.mem_map, denotes_float]
  | bool scalars =>
    refine ⟨h.map fun a b => Value.bool.inj, fun v => ?_⟩
    rw [values, List.mem_map, denotes_bool]
  | str alphabet lengths =>
    obtain ⟨halphabet, hlengths⟩ := h
    refine ⟨(nodup_flatMap_power halphabet hlengths).map fun a b hab => ?_, fun v => ?_⟩
    · exact String.ofList_injective (Value.str.inj hab)
    · simp only [values, List.mem_map, mem_flatMap_power, denotes_str]
  | list element lengths ih =>
    obtain ⟨helement, hlengths⟩ := h
    obtain ⟨hnodup, hmem⟩ := ih helement
    refine ⟨(nodup_flatMap_power hnodup hlengths).map fun a b => Value.list.inj, fun v => ?_⟩
    simp only [values, List.mem_map, mem_flatMap_power, hmem, denotes_list]
  | tuple element lengths ih =>
    obtain ⟨helement, hlengths⟩ := h
    obtain ⟨hnodup, hmem⟩ := ih helement
    refine ⟨(nodup_flatMap_power hnodup hlengths).map fun a b => Value.tuple.inj, fun v => ?_⟩
    simp only [values, List.mem_map, mem_flatMap_power, hmem, denotes_tuple]
  | set element lengths ih =>
    obtain ⟨helement, hlengths⟩ := h
    obtain ⟨hnodup, hmem⟩ := ih helement
    refine ⟨nodup_map_ofElements hnodup hlengths, fun v => ?_⟩
    simp only [values, mem_map_ofElements hnodup, hmem, denotes_set]
  | dict key value lengths ihk ihv =>
    obtain ⟨hkey, hvalue, hlengths⟩ := h
    obtain ⟨hknodup, hkmem⟩ := ihk hkey
    obtain ⟨hvnodup, hvmem⟩ := ihv hvalue
    refine ⟨nodup_dictionaries hknodup hvnodup hlengths, fun v => ?_⟩
    simp only [values, mem_dictionaries hknodup, hkmem, hvmem, denotes_dict]

/-- The enumeration lists what the tree denotes and nothing else, and each value once under
the equality of values. -/
theorem values_exact (t : DomainTree) (h : t.Distinct) :
    (∀ v, v ∈ t.values ↔ t.Denotes v) ∧ ∀ v, t.Denotes v → t.values.count v = 1 := by
  obtain ⟨hnodup, hmem⟩ := values_nodup_and_mem t h
  exact ⟨hmem, fun v hv => List.count_eq_one_of_mem hnodup ((hmem v).mpr hv)⟩

/-- Dictionaries from one-tuples of numbers to sets of strings. -/
def tuplesToSets : DomainTree :=
  .dict (.tuple (.int ⟨[2, 1], []⟩) ⟨[1], []⟩)
    (.set (.str ['b', 'a'] ⟨[0, 1], []⟩) ⟨[2, 0], []⟩) ⟨[1, 2], []⟩

theorem values_exact_tuplesToSets :
    tuplesToSets.Distinct ∧ (∀ v, v ∈ tuplesToSets.values ↔ tuplesToSets.Denotes v) ∧
      ∀ v, tuplesToSets.Denotes v → tuplesToSets.values.count v = 1 :=
  ⟨by decide, values_exact tuplesToSets (by decide)⟩

end DomainTree

end Divergence
