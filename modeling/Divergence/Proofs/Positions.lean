/-
# `Divergence.Proofs.Positions` — where inputs stand in the base set

The base set is the exhaustive inputs and then the random ones, without those
that are equal to an earlier one.  What is left stands in order of first
appearance, and that order alone makes it a list without repetitions.

Exhaustive inputs repeat nothing if no domain and no alphabet does, so none of
them is removed then: their positions are those of the enumeration, whatever
is drawn after them.
-/
import Divergence.Proofs.BaseSet
import Divergence.Proofs.Denotation
import Divergence.Proofs.Representable
import Mathlib.Data.List.Induction
import Mathlib.Data.List.Permutation

namespace Divergence

/-! ## First appearances -/

section EraseDups

variable {α : Type} [BEq α] [LawfulBEq α]

theorem eraseDups_concat (xs : List α) (x : α) :
    (xs ++ [x]).eraseDups = xs.eraseDups ++ if x ∈ xs then [] else [x] := by
  rw [List.eraseDups_append, List.removeAll]
  by_cases hx : x ∈ xs
  · rw [List.filter_cons_of_neg (by simpa using hx), if_pos hx]
    rfl
  · rw [List.filter_cons_of_pos (by simpa using hx), if_neg hx]
    rfl

theorem eraseDups_sublist (xs : List α) : xs.eraseDups.Sublist xs := by
  induction xs using List.reverseRecOn with
  | nil => exact List.Sublist.refl []
  | append_singleton xs x ih =>
    rw [eraseDups_concat]
    refine ih.append ?_
    split
    · exact List.nil_sublist _
    · exact List.Sublist.refl _

/-- What is left stands in order of first appearance. -/
theorem pairwise_idxOf_eraseDups (xs : List α) :
    xs.eraseDups.Pairwise fun x y => xs.idxOf x < xs.idxOf y := by
  induction xs using List.reverseRecOn with
  | nil => exact List.Pairwise.nil
  | append_singleton xs x ih =>
    have hidx {y : α} (hy : y ∈ xs) : (xs ++ [x]).idxOf y = xs.idxOf y := by
      rw [List.idxOf_append, if_pos hy]
    rw [eraseDups_concat, List.pairwise_append]
    refine ⟨ih.imp_of_mem fun {y z} hy hz hlt => ?_, ?_, fun y hy z hz => ?_⟩
    · rw [hidx (List.mem_eraseDups.mp hy), hidx (List.mem_eraseDups.mp hz)]
      exact hlt
    · split
      · exact List.Pairwise.nil
      · exact List.pairwise_singleton _ _
    · split at hz
      · exact absurd hz List.not_mem_nil
      · next hnew =>
        obtain rfl := List.mem_singleton.mp hz
        rw [hidx (List.mem_eraseDups.mp hy), List.idxOf_append, if_neg hnew]
        have := List.idxOf_lt_length_of_mem (List.mem_eraseDups.mp hy)
        omega

theorem nodup_eraseDups (xs : List α) : xs.eraseDups.Nodup :=
  (pairwise_idxOf_eraseDups xs).imp fun {x y} hlt heq => by
    subst heq
    exact Nat.lt_irrefl _ hlt

theorem eraseDups_eq_self {xs : List α} (h : xs.Nodup) : xs.eraseDups = xs := by
  induction xs using List.reverseRecOn with
  | nil => rfl
  | append_singleton xs x ih =>
    obtain ⟨hxs, -, hdisjoint⟩ := List.nodup_append.mp h
    have hx : x ∉ xs := fun hx => hdisjoint x hx x (List.mem_singleton_self x) rfl
    rw [eraseDups_concat, ih hxs, if_neg hx]

theorem prefix_eraseDups_append {xs : List α} (h : xs.Nodup) (ys : List α) :
    xs <+: (xs ++ ys).eraseDups := by
  rw [List.eraseDups_append, eraseDups_eq_self h]
  exact List.prefix_append xs _

end EraseDups

namespace DomainTree

open Divergence.Count

/-! ## Exhaustive inputs -/

theorem nodup_inputs {parameters : List DomainTree} (h : ∀ t ∈ parameters, t.Distinct) :
    (inputs parameters).Nodup :=
  Enumeration.nodup_product
    (List.forall_mem_map.mpr fun t ht => (values_nodup_and_mem t (h t ht)).1)

/-- What a machine of 64 bits can hold: lengths below `2 ^ 64`, and fewer inputs than that.
Counts are capped above. -/
structure Addressable (parameters : List DomainTree) : Prop where
  lengths : ∀ t ∈ parameters, ∀ n ∈ t.nodes, ∀ k ∈ n.ownLengths, k < 2 ^ 64
  inputs : (inputs parameters).length < 2 ^ 64

theorem Addressable.baseSetSize_eq {parameters : List DomainTree} (h : Addressable parameters) :
    baseSetSize parameters = (DomainTree.inputs parameters).length :=
  (counts_baseSetSize_of_counts fun t ht => counts_exhaustiveCount (h.lengths t ht)).eq_of_lt
    h.inputs

/-- Lengths everywhere in a tree, if they are bounded by a property. -/
theorem Everywhere.ownLengths_lt {P : DomainProperty} {t : DomainTree}
    (h : t.Everywhere P .exhaustive)
    (hP : ∀ lengths, P.length lengths → ∀ k ∈ lengths, k < 2 ^ 64) :
    ∀ n ∈ t.nodes, ∀ k ∈ n.ownLengths, k < 2 ^ 64 := by
  intro n hn
  have hnode := everywhere_of_mem_nodes h hn
  cases n with
  | int | float | bool => exact fun k hk => absurd hk List.not_mem_nil
  | str => exact hP _ hnode
  | list | tuple | set => exact hP _ hnode.2
  | dict => exact hP _ hnode.2.2

theorem ownLengths_lt_of_representable {t : DomainTree}
    (h : t.Everywhere representable .exhaustive) :
    ∀ n ∈ t.nodes, ∀ k ∈ n.ownLengths, k < 2 ^ 64 :=
  h.ownLengths_lt fun _ hl k hk => Nat.lt_trans (hl k hk) (by decide)

end DomainTree

theorem Spec.addressable_of_read {text : List Char} {spec : Spec} (h : read text = .ok spec) :
    DomainTree.Addressable spec.parameters where
  lengths t ht := DomainTree.ownLengths_lt_of_representable
    (everywhere_of_read DomainTree.representable_ofRead h t ht .exhaustive)
  inputs := by
    obtain ⟨-, hwithin, hsize⟩ := read_eq_ok h
    have hcounts := DomainTree.counts_baseSetSize hwithin
    exact Nat.lt_of_le_of_lt (hcounts.le_iff.mp hsize) Count.maxExhaustive_lt

namespace BaseSet

open Divergence.DomainTree Divergence.Sampling

/-! ## The base set -/

variable {σ : Type} {c : Chooser σ} {parameters : List DomainTree} {rounds : Nat} {s : σ}

/-- A round gives at most one input. -/
theorem length_randomInputs_le (c : Chooser σ) (parameters : List DomainTree) (rounds : Nat)
    (s : σ) : (randomInputs c parameters rounds s).1.length ≤ rounds := by
  induction rounds generalizing s with
  | zero => exact Nat.le_refl 0
  | succ rounds ih =>
    rw [randomInputs]
    split
    · next input s' _ => exact Nat.succ_le_succ (ih s')
    · next s' _ => exact Nat.le_succ_of_le (ih s')

theorem exists_sample_of_mem_randomInputs {input : Input}
    (h : input ∈ (randomInputs c parameters rounds s).1) :
    ∃ s', (sampleInput c parameters s').1 = some input := by
  induction rounds generalizing s with
  | zero => exact absurd h List.not_mem_nil
  | succ rounds ih =>
    rw [randomInputs] at h
    split at h
    · next hsample =>
      rcases List.mem_cons.mp h with rfl | hrest
      · exact ⟨s, congrArg Prod.fst hsample⟩
      · exact ih hrest
    · exact ih h

/-- The inputs of a base set, given those that are enumerated and those that are drawn: each of
them once, in order of first appearance. -/
structure Collects (exhaustive random collected : List Input) : Prop where
  eq_eraseDups : collected = (exhaustive ++ random).eraseDups
  nodup : collected.Nodup
  mem_iff : ∀ input, input ∈ collected ↔ input ∈ exhaustive ∨ input ∈ random
  inOrder : collected.Pairwise fun a b =>
    (exhaustive ++ random).idxOf a < (exhaustive ++ random).idxOf b

theorem collects_eraseDups (exhaustive random : List Input) :
    Collects exhaustive random (exhaustive ++ random).eraseDups where
  eq_eraseDups := rfl
  nodup := nodup_eraseDups _
  mem_iff _ := List.mem_eraseDups.trans List.mem_append
  inOrder := pairwise_idxOf_eraseDups _

theorem Collects.length_le {exhaustive random collected : List Input}
    (h : Collects exhaustive random collected) :
    collected.length ≤ exhaustive.length + random.length := by
  rw [h.eq_eraseDups, ← List.length_append]
  exact (eraseDups_sublist _).length_le

theorem Collects.starts {exhaustive random collected : List Input}
    (h : Collects exhaustive random collected) (hnodup : exhaustive.Nodup) :
    exhaustive <+: collected := by
  rw [h.eq_eraseDups]
  exact prefix_eraseDups_append hnodup random

theorem generate_eq (c : Chooser σ) (parameters : List DomainTree) (rounds : Nat) (s : σ) :
    generate c parameters rounds s =
      ((inputs parameters ++ (randomInputs c parameters rounds s).1).eraseDups,
        (randomInputs c parameters rounds s).2) := by
  rw [← distinct_eq_eraseDups]
  rfl

/-- From every state, the base set collects the exhaustive inputs and those that sampling would
give from the same state, and leaves the state as sampling would.  It is at most as long as
the computed size of the exhaustive part and the number of rounds together.  If no domain
and no alphabet repeats an entry, the exhaustive inputs are the first of it, each at its
position in the enumeration, whatever the state and the number of rounds.

The computed size is capped, so it is the number of inputs only if these can be held at all;
every specification that is accepted has such parameters. -/
theorem generate_exact :
    (∀ {σ : Type} (c : Chooser σ) (parameters : List DomainTree) (rounds : Nat) (s : σ),
      let exhaustive := inputs parameters
      let random := randomInputs c parameters rounds s
      let generated := generate c parameters rounds s
      Collects exhaustive random.1 generated.1 ∧ generated.2 = random.2 ∧
      generated.1.length ≤ exhaustive.length + rounds ∧
      (Addressable parameters → generated.1.length ≤ baseSetSize parameters + rounds) ∧
      ((∀ t ∈ parameters, t.Distinct) → exhaustive <+: generated.1 ∧
        (Addressable parameters → ∀ k < baseSetSize parameters,
          ∃ input, exhaustive[k]? = some input ∧ generated.1[k]? = some input))) ∧
    ∀ text spec, Spec.read text = .ok spec → Addressable spec.parameters := by
  refine ⟨fun c parameters rounds s => ?_, fun text spec => Spec.addressable_of_read⟩
  intro exhaustive random generated
  have hgenerated : generated = ((exhaustive ++ random.1).eraseDups, random.2) :=
    generate_eq c parameters rounds s
  have hcollects : Collects exhaustive random.1 generated.1 := by
    rw [hgenerated]
    exact collects_eraseDups exhaustive random.1
  have hlength : generated.1.length ≤ exhaustive.length + rounds :=
    hcollects.length_le.trans
      (Nat.add_le_add_left (length_randomInputs_le c parameters rounds s) _)
  refine ⟨hcollects, by rw [hgenerated], hlength, ?_, ?_⟩
  · intro haddressable
    rw [haddressable.baseSetSize_eq]
    exact hlength
  · intro hdistinct
    have hstarts : exhaustive <+: generated.1 := hcollects.starts (nodup_inputs hdistinct)
    refine ⟨hstarts, fun haddressable k hk => ?_⟩
    rw [haddressable.baseSetSize_eq] at hk
    exact ⟨exhaustive[k], List.getElem?_eq_getElem hk,
      List.prefix_iff_getElem?.mp hstarts k hk⟩

/-- Sets of two of three numbers, drawn from two of them. -/
def drawnPairs : List DomainTree :=
  [.set (.int ⟨[1, 2, 3], [1, 2]⟩) ⟨[2], [2]⟩]

theorem generate_exact_drawnPairs :
    ((∀ t ∈ drawnPairs, t.Distinct) ∧ Addressable drawnPairs ∧
      ∀ (rounds : Nat) (s : Keystream),
        let generated := (generate Keystream.chooser drawnPairs rounds s).1
        generated.length ≤ 3 + rounds ∧ generated[2]? = some [.set [.int 2, .int 3]]) ∧
    ∃ spec, Spec.read Spec.pairsText = .ok spec ∧ Addressable spec.parameters := by
  obtain ⟨hgenerate, haccepted⟩ := generate_exact
  have hdistinct : ∀ t ∈ drawnPairs, t.Distinct := by decide
  have hinputs : inputs drawnPairs =
      [[.set [.int 1, .int 2]], [.set [.int 1, .int 3]], [.set [.int 2, .int 3]]] := by
    cbv
  have haddressable : Addressable drawnPairs := by
    refine ⟨by decide, ?_⟩
    rw [hinputs]
    decide
  obtain ⟨spec, hread, -⟩ := Spec.read_pairsText
  refine ⟨⟨hdistinct, haddressable, fun rounds s => ?_⟩, spec, hread, haccepted _ spec hread⟩
  obtain ⟨-, -, -, hlength, hplaces⟩ := hgenerate Keystream.chooser drawnPairs rounds s
  obtain ⟨-, hplace⟩ := hplaces hdistinct
  obtain ⟨input, hinput, hget⟩ := hplace haddressable 2 (by decide)
  rw [hinputs] at hinput
  cases hinput
  exact ⟨hlength haddressable, hget⟩

end BaseSet

end Divergence
