/-
# `Divergence.Proofs.Samples` — sampling gives what the random domains allow

Which values a tree can be sampled as is said here without sampling (`Samples`), and
so is whether sampling can fail (`CanFail`).  A length is drawn for a set or a
dictionary as well, but of the entries drawn those that repeat an element or a key
are lost: any smaller number can be left, only not none of some (`LeftOf`).
-/
import Divergence.Proofs.Canonical
import Divergence.Proofs.Choices
import Divergence.Proofs.Orders
import Divergence.Proofs.Sides
import Divergence.Proofs.TypeTokens
import Divergence.Sampling.Values

namespace Divergence.DomainTree

open Divergence.Ordered Divergence.Sampling

/-- The values that the random domains of a tree stand for. -/
def Samples : DomainTree → Value → Prop
  | .int scalars, .int i => i ∈ scalars.random
  | .float scalars, .float x => x ∈ scalars.random
  | .bool scalars, .bool b => b ∈ scalars.random
  | .str alphabet lengths, .str s => s.length ∈ lengths.random ∧ ∀ c ∈ s.toList, c ∈ alphabet
  | .list element lengths, .list items | .tuple element lengths, .tuple items =>
    items.length ∈ lengths.random ∧ ∀ x ∈ items, element.Samples x
  | .set element lengths, .set elements =>
    LeftOf lengths.random elements.length ∧ Increasing id Value.cmp elements ∧
      ∀ x ∈ elements, element.Samples x
  | .dict key value lengths, .dict entries =>
    LeftOf lengths.random entries.length ∧ Increasing Prod.fst Value.cmp entries ∧
      ∀ e ∈ entries, key.Samples e.1 ∧ value.Samples e.2
  | _, _ => False

/-- An empty domain or alphabet can be reached. -/
def CanFail : DomainTree → Prop
  | .int scalars => scalars.random = []
  | .float scalars => scalars.random = []
  | .bool scalars => scalars.random = []
  | .str alphabet lengths =>
    lengths.random = [] ∨ (∃ n ∈ lengths.random, 0 < n) ∧ alphabet = []
  | .list element lengths | .tuple element lengths | .set element lengths =>
    lengths.random = [] ∨ (∃ n ∈ lengths.random, 0 < n) ∧ element.CanFail
  | .dict key value lengths =>
    lengths.random = [] ∨ (∃ n ∈ lengths.random, 0 < n) ∧ (key.CanFail ∨ value.CanFail)

/-- Every domain has an entry. -/
def nonempty : DomainProperty :=
  ⟨(· ≠ []), (· ≠ []), (· ≠ []), (· ≠ [])⟩

/-! ## Values of a kind -/

section Samples

variable {element key value : DomainTree} {lengths : Domains Nat} {v : Value}

theorem samples_str {alphabet : List Char} :
    (∃ chars : List Char, (chars.length ∈ lengths.random ∧ ∀ c ∈ chars, c ∈ alphabet) ∧
      .str (String.ofList chars) = v) ↔ Samples (.str alphabet lengths) v := by
  constructor
  · rintro ⟨chars, ⟨hlength, hchars⟩, rfl⟩
    rw [Samples, String.length_ofList, String.toList_ofList]
    exact ⟨hlength, hchars⟩
  · intro hv
    cases v with
    | str s =>
      refine ⟨s.toList, ⟨?_, hv.2⟩, by rw [String.ofList_toList]⟩
      rw [String.length_toList]
      exact hv.1
    | _ => exact hv.elim

theorem samples_list :
    (∃ items : List Value, (items.length ∈ lengths.random ∧ ∀ x ∈ items, element.Samples x) ∧
      .list items = v) ↔ Samples (.list element lengths) v := by
  cases v <;> simp [Samples]

theorem samples_tuple :
    (∃ items : List Value, (items.length ∈ lengths.random ∧ ∀ x ∈ items, element.Samples x) ∧
      .tuple items = v) ↔ Samples (.tuple element lengths) v := by
  cases v <;> simp [Samples]

theorem samples_set :
    (∃ xs : List Value, (xs.length ∈ lengths.random ∧ ∀ x ∈ xs, element.Samples x) ∧
      Value.ofElements xs = v) ↔ Samples (.set element lengths) v := by
  cases v with
  | set elements =>
    simp only [Value.ofElements, Value.set.injEq]
    exact exists_byKey_eq
  | _ => simp [Samples, Value.ofElements]

theorem samples_dict :
    (∃ es : List (Value × Value), (es.length ∈ lengths.random ∧
        ∀ e ∈ es, key.Samples e.1 ∧ value.Samples e.2) ∧ Value.ofEntries es = v) ↔
      Samples (.dict key value lengths) v := by
  cases v with
  | dict entries =>
    simp only [Value.ofEntries, Value.dict.injEq]
    exact exists_byKey_eq
  | _ => simp [Samples, Value.ofEntries]

end Samples

/-! ## Trees -/

theorem exact_sample (t : DomainTree) : Exact (fun c => t.sample c) t.Samples t.CanFail := by
  induction t with
  | int scalars | float scalars | bool scalars =>
    refine (exact_choose scalars.random).map.of_iff (fun v => ?_) Iff.rfl
    cases v <;> simp [Samples]
  | str alphabet lengths =>
    exact ((exact_choose alphabet).sequence lengths.random _).of_iff (fun _ => samples_str) Iff.rfl
  | list element lengths ih =>
    exact (ih.sequence lengths.random _).of_iff (fun _ => samples_list) Iff.rfl
  | tuple element lengths ih =>
    exact (ih.sequence lengths.random _).of_iff (fun _ => samples_tuple) Iff.rfl
  | set element lengths ih =>
    exact (ih.sequence lengths.random _).of_iff (fun _ => samples_set) Iff.rfl
  | dict key value lengths ihk ihv =>
    exact ((ihk.pair ihv).sequence lengths.random _).of_iff (fun _ => samples_dict) Iff.rfl

/-- The values of a sampled input are samples of the parameters, one for each. -/
theorem forall₂_of_sampleInput {σ : Type} {c : Chooser σ} {parameters : List DomainTree} {s : σ}
    {input : Input} (h : (sampleInput c parameters s).1 = some input) :
    List.Forall₂ Samples parameters input := by
  induction parameters generalizing s input with
  | nil =>
    cases h
    exact .nil
  | cons t ts ih =>
    simp only [sampleInput, List.map_cons, Draw.all, bind] at h
    split at h
    · next v s' hv =>
      split at h
      · next rest s'' hrest =>
        cases h
        exact .cons ((exact_sample t).sound c s v (congrArg Prod.fst hv))
          (ih (congrArg Prod.fst hrest))
      · cases h
    · cases h

theorem not_canFail {t : DomainTree} (hdomains : t.Everywhere nonempty .random)
    (halphabets : ∀ a ∈ t.shape.alphabets, a ≠ []) : ¬ t.CanFail := by
  induction t with
  | int | float | bool => exact hdomains
  | str alphabet lengths =>
    rintro (hempty | ⟨-, hempty⟩)
    · exact hdomains hempty
    · exact halphabets alphabet List.mem_cons_self hempty
  | list element lengths ih | tuple element lengths ih | set element lengths ih =>
    rintro (hempty | ⟨-, hfail⟩)
    · exact hdomains.2 hempty
    · exact ih hdomains.1 halphabets hfail
  | dict key value lengths ihk ihv =>
    obtain ⟨hkey, hvalue⟩ := List.forall_mem_append.mp halphabets
    rintro (hempty | ⟨-, hfail | hfail⟩)
    · exact hdomains.2.2 hempty
    · exact ihk hdomains.1 hkey hfail
    · exact ihv hdomains.2.1 hvalue hfail

/-- Over all choosers, a tree can be sampled as exactly the values that its random domains stand
for, and sampling can fail exactly if an empty domain or alphabet can be reached.  So if no
domain and no alphabet is empty, there is a value with every chooser. -/
theorem sample_exact (t : DomainTree) :
    (∀ v, CanGive (fun c => t.sample c) (some v) ↔ t.Samples v) ∧
    (CanGive (fun c => t.sample c) none ↔ t.CanFail) ∧
    (t.Everywhere nonempty .random → (∀ a ∈ t.shape.alphabets, a ≠ []) →
      ∀ {σ : Type} (c : Chooser σ) (s : σ), ∃ v, (t.sample c s).1 = some v ∧ t.Samples v) := by
  refine ⟨(exact_sample t).canGive, (exact_sample t).canGive_none, ?_⟩
  intro hdomains halphabets σ c s
  exact (exact_sample t).exists_result (not_canFail hdomains halphabets) c s

/-- Dictionaries of two numbers to strings of three characters or none. -/
def labels (alphabet : List Char) : DomainTree :=
  .dict (.int ⟨[], [1, 2]⟩) (.str alphabet ⟨[], [0, 3]⟩) ⟨[], [2]⟩

/-- Without characters a dictionary can still be sampled, if every string is to be empty; and the
two numbers drawn may be the same. -/
theorem sample_exact_labels :
    (CanGive (fun c => (labels []).sample c) (some (.dict [(.int 1, .str "")])) ∧
      CanGive (fun c => (labels []).sample c) none) ∧
    ((labels ['a', 'b']).Everywhere nonempty .random ∧
      (∀ a ∈ (labels ['a', 'b']).shape.alphabets, a ≠ []) ∧
      ∀ s : Keystream, ∃ v, ((labels ['a', 'b']).sample Keystream.chooser s).1 = some v ∧
        (labels ['a', 'b']).Samples v) := by
  obtain ⟨hvalues, hfailure, -⟩ := sample_exact (labels [])
  obtain ⟨-, -, hresult⟩ := sample_exact (labels ['a', 'b'])
  have hdomains : (labels ['a', 'b']).Everywhere nonempty .random := by
    simp [labels, Everywhere, nonempty, Domains.on]
  have halphabets : ∀ a ∈ (labels ['a', 'b']).shape.alphabets, a ≠ [] := by decide
  refine ⟨⟨(hvalues _).mpr ?_, hfailure.mpr ?_⟩, hdomains, halphabets,
    hresult hdomains halphabets Keystream.chooser⟩
  · simp [labels, Samples, LeftOf, Increasing]
  · simp [labels, CanFail]

end Divergence.DomainTree
