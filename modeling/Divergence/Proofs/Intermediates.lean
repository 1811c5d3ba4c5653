/-
# `Divergence.Proofs.Intermediates` — what the enumeration holds on the way

The base set is built factor by factor, so the product over the first parameters is held
before the others are looked at.  A dictionary is built from a choice of keys first, and so
all choices of so many keys are held before any value is looked at.  The limit is on the
values of nodes and on the base set, though, and says nothing of either.

As long as there is something to go on with, going on makes no list shorter: a factor that
has values leaves at least as many rows as there were, and so do the assignments of values
to keys.  What is held is then within the limit because the result is.  Where a later
parameter has no values, or the values of a dictionary have none, the result is empty, and
what was held before may be as large as its parts allow (`held_above_limit`).
-/
import Divergence.Proofs.SpecLimit

namespace Divergence

open Divergence.Enumeration

namespace Enumeration

variable {α : Type}

/-- A factor with something in it leaves at least as many rows as there were. -/
theorem length_le_length_snocEach {items : List α} (h : items ≠ []) (rows : List (List α)) :
    rows.length ≤ (snocEach rows items).length := by
  rw [length_snocEach]
  exact Nat.le_mul_of_pos_right _ (List.length_pos_of_ne_nil h)

/-- So what is held while a product is built is no longer than the product, unless one of the
factors to come is empty. -/
theorem length_le_length_foldl_snocEach {factors : List (List α)}
    (h : ∀ items ∈ factors, items ≠ []) (rows : List (List α)) :
    rows.length ≤ (factors.foldl snocEach rows).length := by
  induction factors generalizing rows with
  | nil => exact Nat.le_refl _
  | cons items factors ih =>
    obtain ⟨hitems, hfactors⟩ := List.forall_mem_cons.mp h
    calc rows.length ≤ (snocEach rows items).length := length_le_length_snocEach hitems rows
      _ ≤ (factors.foldl snocEach (snocEach rows items)).length := ih hfactors _

end Enumeration

namespace DomainTree

/-- The inputs of the first parameters are what the others are multiplied into. -/
theorem inputs_eq_foldl (parameters : List DomainTree) (k : Nat) :
    inputs parameters =
      ((parameters.drop k).map values).foldl snocEach (inputs (parameters.take k)) := by
  rw [inputs, inputs, product, product, ← List.foldl_append, ← List.map_append,
    List.take_append_drop]

theorem length_inputs_take_le {parameters : List DomainTree} {k : Nat}
    (h : ∀ t ∈ parameters.drop k, t.values ≠ []) :
    (inputs (parameters.take k)).length ≤ (inputs parameters).length := by
  rw [inputs_eq_foldl parameters k]
  exact length_le_length_foldl_snocEach (List.forall_mem_map.mpr h) _

/-- A choice of keys has at least one assignment of values to them, if there are values or
nothing to assign them to. -/
theorem length_combinations_le {keys values : List Value} {n : Nat} (h : n = 0 ∨ values ≠ []) :
    (combinations keys n).length ≤ (dictionaries keys values n).length := by
  rw [length_dictionaries, combinations_eq_choices, length_choices]
  refine Nat.le_mul_of_pos_right _ ?_
  rcases h with rfl | hvalues
  · exact Nat.one_pos
  · exact Nat.pow_pos (List.length_pos_of_ne_nil hvalues)

theorem length_dictionaries_le_of_mem {key value : DomainTree} {lengths : Domains Nat} {n : Nat}
    (h : n ∈ lengths.exhaustive) :
    (dictionaries key.values value.values n).length ≤ (dict key value lengths).values.length := by
  rw [values, List.flatMap_def]
  exact (List.sublist_flatten_of_mem (List.mem_map_of_mem h)).length_le

end DomainTree

namespace Spec

open DomainTree

/-- Of an accepted specification, the product over the first parameters is within the limit
unless one of the others has no values, and so are the choices of keys of a dictionary unless
it has no values to assign to them. -/
theorem held_within_limit {text : List Char} {spec : Spec} (h : read text = .ok spec) :
    (∀ k, maxExhaustive < (inputs (spec.parameters.take k)).length →
      ∃ t ∈ spec.parameters.drop k, t.values = []) ∧
    ∀ t ∈ spec.parameters, ∀ key value lengths, .dict key value lengths ∈ t.nodes →
      ∀ n ∈ lengths.exhaustive, maxExhaustive < (combinations key.values n).length →
        n ≠ 0 ∧ value.values = [] := by
  obtain ⟨-, hwithin, hsize⟩ := read_eq_ok h
  constructor
  · intro k hlarge
    by_contra hnone
    push Not at hnone
    have hlength := (counts_baseSetSize hwithin).le_iff.mp hsize
    exact absurd (Nat.le_trans (length_inputs_take_le hnone) hlength) (Nat.not_le.mpr hlarge)
  · intro t ht key value lengths hnode n hn hlarge
    by_contra hvalues
    have hassigned : n = 0 ∨ value.values ≠ [] := by
      rwa [not_and_or, not_ne_iff] at hvalues
    have hlength : (combinations key.values n).length ≤ maxExhaustive :=
      calc (combinations key.values n).length
          ≤ (dictionaries key.values value.values n).length := length_combinations_le hassigned
        _ ≤ (dict key value lengths).values.length := length_dictionaries_le_of_mem hn
        _ ≤ maxExhaustive := hwithin t ht _ hnode
    exact absurd hlength (Nat.not_le.mpr hlarge)

/-- A specification of two strings of ten characters, and of a dictionary of eleven of 23 keys
without values. -/
def crowdedText : List Char :=
  ("\x7b\"fname\": \"f\", \"types\": [\"str(ab)\", \"str(ab)\", \"dict(int:int)\"], " ++
    "\"exhaustive domain\": [\"10\", \"10\", \"11(0~22:[])\"], " ++
    "\"random domain\": [\"1\", \"1\", \"1(1:1)\"], \"num random\": 1\x7d").toList

/-- The domain trees of `crowdedText`: the strings and the dictionary. -/
def crowdedWord : DomainTree :=
  .str ['a', 'b'] ⟨[10], [1]⟩

def crowdedKeys : DomainTree :=
  .int ⟨(List.range 23).map Int.ofNat, [1]⟩

def crowdedDict : DomainTree :=
  .dict crowdedKeys (.int ⟨[], [1]⟩) ⟨[11], [1]⟩

theorem limit_lt_length_inputs :
    maxExhaustive < (inputs [crowdedWord, crowdedWord]).length := by
  have hword : crowdedWord.values.length = 1024 := by
    rw [crowdedWord, values, List.length_map, length_flatMap_power]
    rfl
  rw [length_inputs, List.map_cons, List.map_cons, hword]
  decide

theorem limit_lt_length_combinations :
    maxExhaustive < (combinations crowdedKeys.values 11).length := by
  have hkeys : crowdedKeys.values.length = 23 := by
    rw [crowdedKeys, values, List.length_map, List.length_map, List.length_range]
  rw [combinations_eq_choices, length_choices, hkeys, Nat.choose_eq_descFactorial_div_factorial]
  decide

/-- The text is accepted, and both of its lists are above the limit. -/
theorem read_crowded :
    ∃ spec, read crowdedText = .ok spec ∧
      maxExhaustive < (inputs (spec.parameters.take 2)).length ∧
      crowdedDict ∈ spec.parameters := by
  obtain ⟨spec, hread, hparameters⟩ : ∃ spec, read crowdedText = .ok spec ∧
      spec.parameters = [crowdedWord, crowdedWord, crowdedDict] :=
    map_eq_ok.mp (by decide +kernel)
  refine ⟨spec, hread, ?_⟩
  rw [hparameters]
  exact ⟨limit_lt_length_inputs, by simp⟩

theorem held_within_limit_crowded :
    ∃ spec, read crowdedText = .ok spec ∧
      (maxExhaustive < (inputs (spec.parameters.take 2)).length ∧
        ∃ t ∈ spec.parameters.drop 2, t.values = []) ∧
      (maxExhaustive < (combinations crowdedKeys.values 11).length ∧
        11 ≠ 0 ∧ (DomainTree.int ⟨[], [1]⟩).values = []) := by
  obtain ⟨spec, hread, hinputs, hdict⟩ := read_crowded
  obtain ⟨hparameters, hchoices⟩ := held_within_limit hread
  have hlarge := limit_lt_length_combinations
  exact ⟨spec, hread, ⟨hinputs, hparameters 2 hinputs⟩, hlarge,
    hchoices crowdedDict hdict _ _ _ (mem_nodes_self crowdedDict) 11 List.mem_cons_self hlarge⟩

/-- What is held on the way is above the limit for an accepted specification, in the product
over the first parameters and in the choices of keys. -/
theorem held_above_limit :
    (¬ ∀ (text : List Char) (spec : Spec), read text = .ok spec →
      ∀ k, (inputs (spec.parameters.take k)).length ≤ maxExhaustive) ∧
    ¬ ∀ (text : List Char) (spec : Spec), read text = .ok spec →
      ∀ t ∈ spec.parameters, ∀ key value lengths, .dict key value lengths ∈ t.nodes →
        ∀ n ∈ lengths.exhaustive, (combinations key.values n).length ≤ maxExhaustive := by
  obtain ⟨spec, hread, hinputs, hdict⟩ := read_crowded
  constructor
  · intro h
    exact absurd (h crowdedText spec hread 2) (Nat.not_le.mpr hinputs)
  · intro h
    have hchoices := h crowdedText spec hread crowdedDict hdict _ _ _ (mem_nodes_self crowdedDict)
      11 List.mem_cons_self
    exact absurd hchoices (Nat.not_le.mpr limit_lt_length_combinations)

end Spec

end Divergence
