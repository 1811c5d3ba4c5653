/-
# `Divergence.Proofs.Ingredients` — what generated values are made of

Enumeration takes from the exhaustive domains of a tree and sampling from the random ones,
but both put values together in the same way.  `Allows` says for one side what comes of
that: scalars of the domains, strings over the alphabets, and containers of what the
subtrees allow, sets and dictionaries in increasing order.  Lengths are left open, and so
is whether a domain repeats an entry.

Whatever stands inside a value, at any depth (`OccursIn`), is allowed by some node of the
tree.  So a property of all sets in a value is a property of the nodes that allow sets.
-/
import Divergence.Proofs.Denotation
import Divergence.Proofs.Expansion
import Divergence.Proofs.Samples

namespace Divergence

open Enumeration Ordered Sampling

/-! ## Inside a value -/

/-- The first value stands somewhere in the second, or is the second itself. -/
inductive Value.OccursIn (w : Value) : Value → Prop
  | here : OccursIn w w
  | list {items : List Value} {x : Value} : x ∈ items → OccursIn w x → OccursIn w (.list items)
  | tuple {items : List Value} {x : Value} : x ∈ items → OccursIn w x → OccursIn w (.tuple items)
  | set {elements : List Value} {x : Value} :
      x ∈ elements → OccursIn w x → OccursIn w (.set elements)
  | key {entries : List (Value × Value)} {e : Value × Value} :
      e ∈ entries → OccursIn w e.1 → OccursIn w (.dict entries)
  | value {entries : List (Value × Value)} {e : Value × Value} :
      e ∈ entries → OccursIn w e.2 → OccursIn w (.dict entries)

namespace DomainTree

/-- The value is made of what a side of the tree has. -/
inductive Allows (side : Side) : DomainTree → Value → Prop
  | int {scalars : Domains Int} {i : Int} :
      i ∈ scalars.on side → Allows side (.int scalars) (.int i)
  | float {scalars : Domains Binary64} {x : Binary64} :
      x ∈ scalars.on side → Allows side (.float scalars) (.float x)
  | bool {scalars : Domains Bool} {b : Bool} :
      b ∈ scalars.on side → Allows side (.bool scalars) (.bool b)
  | str {alphabet : List Char} {lengths : Domains Nat} {s : String} :
      (∀ c ∈ s.toList, c ∈ alphabet) → Allows side (.str alphabet lengths) (.str s)
  | list {element : DomainTree} {lengths : Domains Nat} {items : List Value} :
      (∀ x ∈ items, Allows side element x) → Allows side (.list element lengths) (.list items)
  | tuple {element : DomainTree} {lengths : Domains Nat} {items : List Value} :
      (∀ x ∈ items, Allows side element x) → Allows side (.tuple element lengths) (.tuple items)
  | set {element : DomainTree} {lengths : Domains Nat} {elements : List Value} :
      Increasing id Value.cmp elements → (∀ x ∈ elements, Allows side element x) →
      Allows side (.set element lengths) (.set elements)
  | dict {key value : DomainTree} {lengths : Domains Nat} {entries : List (Value × Value)} :
      Increasing Prod.fst Value.cmp entries → (∀ e ∈ entries, Allows side key e.1) →
      (∀ e ∈ entries, Allows side value e.2) →
      Allows side (.dict key value lengths) (.dict entries)

/-! ## Enumeration and sampling -/

theorem allows_of_mem_values {t : DomainTree} {v : Value} (h : v ∈ t.values) :
    t.Allows .exhaustive v := by
  induction t generalizing v with
  | int scalars =>
    obtain ⟨i, hi, rfl⟩ := List.mem_map.mp h
    exact .int hi
  | float scalars =>
    obtain ⟨x, hx, rfl⟩ := List.mem_map.mp h
    exact .float hx
  | bool scalars =>
    obtain ⟨b, hb, rfl⟩ := List.mem_map.mp h
    exact .bool hb
  | str alphabet lengths =>
    obtain ⟨chars, hchars, rfl⟩ := List.mem_map.mp h
    refine .str ?_
    rw [String.toList_ofList]
    exact (mem_flatMap_power.mp hchars).2
  | list element lengths ih =>
    obtain ⟨row, hrow, rfl⟩ := List.mem_map.mp h
    exact .list fun x hx => ih ((mem_flatMap_power.mp hrow).2 x hx)
  | tuple element lengths ih =>
    obtain ⟨row, hrow, rfl⟩ := List.mem_map.mp h
    exact .tuple fun x hx => ih ((mem_flatMap_power.mp hrow).2 x hx)
  | set element lengths ih =>
    obtain ⟨chosen, hchosen, rfl⟩ := List.mem_map.mp h
    have hsub : chosen.Sublist element.values := (mem_flatMap_combinations.mp hchosen).1
    exact .set (increasing_byKey chosen) fun x hx => ih (hsub.subset (mem_of_mem_byKey hx))
  | dict key value lengths ihk ihv =>
    obtain ⟨n, -, hn⟩ := List.mem_flatMap.mp h
    rw [dictionaries_eq_map] at hn
    obtain ⟨entries, hentries, rfl⟩ := List.mem_map.mp hn
    obtain ⟨hkeys, -, hvalues⟩ := mem_entryRows.mp hentries
    refine .dict (increasing_byKey entries) (fun e he => ihk ?_) fun e he => ihv ?_
    · exact hkeys.subset (List.mem_map_of_mem (mem_of_mem_byKey he))
    · exact hvalues e (mem_of_mem_byKey he)

theorem allows_of_samples {t : DomainTree} {v : Value} (h : t.Samples v) :
    t.Allows .random v := by
  induction t generalizing v with
  | int scalars => cases v with
    | int i => exact .int h
    | _ => exact h.elim
  | float scalars => cases v with
    | float x => exact .float h
    | _ => exact h.elim
  | bool scalars => cases v with
    | bool b => exact .bool h
    | _ => exact h.elim
  | str alphabet lengths => cases v with
    | str s => exact .str h.2
    | _ => exact h.elim
  | list element lengths ih => cases v with
    | list items => exact .list fun x hx => ih (h.2 x hx)
    | _ => exact h.elim
  | tuple element lengths ih => cases v with
    | tuple items => exact .tuple fun x hx => ih (h.2 x hx)
    | _ => exact h.elim
  | set element lengths ih => cases v with
    | set elements => exact .set h.2.1 fun x hx => ih (h.2.2 x hx)
    | _ => exact h.elim
  | dict key value lengths ihk ihv => cases v with
    | dict entries =>
      exact .dict h.2.1 (fun e he => ihk (h.2.2 e he).1) fun e he => ihv (h.2.2 e he).2
    | _ => exact h.elim

theorem allows_of_sample {σ : Type} {c : Chooser σ} {t : DomainTree} {s : σ} {v : Value}
    (h : (t.sample c s).1 = some v) : t.Allows .random v :=
  allows_of_samples ((exact_sample t).sound c s v h)

/-- The values of an exhaustive input are allowed by the parameters, one for each. -/
theorem forall₂_allows_of_mem_inputs {parameters : List DomainTree} {input : Input}
    (h : input ∈ inputs parameters) :
    List.Forall₂ (Allows .exhaustive) parameters input := by
  have hmem : List.Forall₂ (fun v values => v ∈ values) input (parameters.map values) :=
    mem_product.mp h
  rw [List.forall₂_map_right_iff] at hmem
  exact hmem.flip.imp fun t v hv => allows_of_mem_values hv

/-- So are those of a sampled one. -/
theorem forall₂_allows_of_sampleInput {σ : Type} {c : Chooser σ} {parameters : List DomainTree}
    {s : σ} {input : Input} (h : (sampleInput c parameters s).1 = some input) :
    List.Forall₂ (Allows .random) parameters input :=
  (forall₂_of_sampleInput h).imp fun _ _ hv => allows_of_samples hv

/-! ## Nodes -/

theorem nodes_subset_of_mem_children {t child : DomainTree} (h : child ∈ t.children) :
    child.nodes ⊆ t.nodes := by
  intro n hn
  rw [nodes_eq]
  exact List.mem_append_left _ (List.mem_flatMap.mpr ⟨child, h, hn⟩)

/-- What stands in an allowed value is allowed by a node of the tree. -/
theorem exists_node_allows {side : Side} {t : DomainTree} {v w : Value} (hv : t.Allows side v)
    (hw : w.OccursIn v) : ∃ n ∈ t.nodes, n.Allows side w := by
  have below {t child : DomainTree} (hchild : child ∈ t.children)
      (h : ∃ n ∈ child.nodes, n.Allows side w) : ∃ n ∈ t.nodes, n.Allows side w := by
    obtain ⟨n, hn, hallows⟩ := h
    exact ⟨n, nodes_subset_of_mem_children hchild hn, hallows⟩
  induction hw generalizing t with
  | here => exact ⟨t, mem_nodes_self t, hv⟩
  | list hx _ ih =>
    cases hv with
    | list hitems => exact below List.mem_cons_self (ih (hitems _ hx))
  | tuple hx _ ih =>
    cases hv with
    | tuple hitems => exact below List.mem_cons_self (ih (hitems _ hx))
  | set hx _ ih =>
    cases hv with
    | set _ helements => exact below List.mem_cons_self (ih (helements _ hx))
  | key he _ ih =>
    cases hv with
    | dict _ hkeys _ => exact below List.mem_cons_self (ih (hkeys _ he))
  | value he _ ih =>
    cases hv with
    | dict _ _ hvalues =>
      exact below (List.mem_cons_of_mem _ (List.mem_singleton_self _)) (ih (hvalues _ he))

end DomainTree

end Divergence
