/-
# `Divergence.Proofs.Expansion` — the limit on expansions

The check accepts a tree if no node of it has more values than the limit, and
the counts of its nodes are exact then (`checkExpansion_eq_ok`,
`exhaustiveCount_eq`).

A node's count is computed from the counts of its subtrees, and a capped count
can be brought down again by a factor of zero or a length of zero: nothing is
known about the count of a node that has a subtree above the limit.  But such
a tree is refused because of the subtree.  So the induction goes through the
nodes from the leaves on and keeps exactness as long as every node, by its
count or by its size, is within the limit.
-/
import Divergence.Enumeration.Values
import Divergence.Proofs.Counts
import Divergence.Proofs.Results
import Divergence.Proofs.Sequences
import Divergence.Proofs.Sides

namespace Divergence.DomainTree

open Divergence.Count Divergence.Enumeration

/-! ## Nodes -/

/-- The tree and its subtrees, each after what it is made of. -/
def nodes : DomainTree → List DomainTree
  | .int scalars => [.int scalars]
  | .float scalars => [.float scalars]
  | .bool scalars => [.bool scalars]
  | .str alphabet lengths => [.str alphabet lengths]
  | .list element lengths => element.nodes ++ [.list element lengths]
  | .tuple element lengths => element.nodes ++ [.tuple element lengths]
  | .set element lengths => element.nodes ++ [.set element lengths]
  | .dict key value lengths => key.nodes ++ value.nodes ++ [.dict key value lengths]

theorem nodes_eq (t : DomainTree) : t.nodes = t.children.flatMap nodes ++ [t] := by
  cases t with
  | int | float | bool | str => rfl
  | list | tuple | set => simp [nodes, children]
  | dict => simp [nodes, children]

theorem forall_mem_nodes {P : DomainTree → Prop} {t : DomainTree} :
    (∀ n ∈ t.nodes, P n) ↔ (∀ c ∈ t.children, ∀ n ∈ c.nodes, P n) ∧ P t := by
  rw [nodes_eq, List.forall_mem_append, List.forall_mem_flatMap, List.forall_mem_singleton]

theorem mem_nodes_self (t : DomainTree) : t ∈ t.nodes := by
  rw [nodes_eq]
  exact List.mem_append_right _ (List.mem_singleton_self t)

/-- Induction from the subtrees of a node to the node. -/
theorem children_induction {P : DomainTree → Prop}
    (node : ∀ t, (∀ c ∈ t.children, P c) → P t) (t : DomainTree) : P t := by
  induction t with
  | int | float | bool | str => exact node _ fun c hc => absurd hc List.not_mem_nil
  | list element _ ih | tuple element _ ih | set element _ ih =>
    exact node _ (List.forall_mem_singleton.mpr ih)
  | dict key value _ ihk ihv =>
    exact node _ (List.forall_mem_cons.mpr ⟨ihk, List.forall_mem_singleton.mpr ihv⟩)

theorem Everywhere.of_mem_children {P : DomainProperty} {side : Side} {t c : DomainTree}
    (h : t.Everywhere P side) (hc : c ∈ t.children) : c.Everywhere P side := by
  cases t with
  | int | float | bool | str => exact absurd hc List.not_mem_nil
  | list | tuple | set =>
    obtain rfl := List.mem_singleton.mp hc
    exact h.1
  | dict =>
    rcases List.mem_pair.mp hc with rfl | rfl
    · exact h.1
    · exact h.2.1

/-- What all domains on a side of a tree have, those of its nodes have. -/
theorem everywhere_of_mem_nodes {P : DomainProperty} {side : Side} {t n : DomainTree}
    (h : t.Everywhere P side) (hn : n ∈ t.nodes) : n.Everywhere P side := by
  induction t using children_induction generalizing n with
  | node t ih =>
    exact forall_mem_nodes.mpr ⟨fun c hc m hm => ih c hc (h.of_mem_children hc) hm, h⟩ n hn

/-! ## Sizes -/

theorem length_flatMap_power {α : Type} (items : List α) (lengths : List Nat) :
    (lengths.flatMap (Enumeration.power items)).length =
      (lengths.map fun n => items.length ^ n).sum := by
  simp only [List.length_flatMap, length_power]

theorem length_flatMap_combinations {α : Type} (items : List α) (lengths : List Nat) :
    (lengths.flatMap (combinations items)).length =
      (lengths.map fun n => items.length.choose n).sum := by
  simp only [List.length_flatMap, combinations_eq_choices, length_choices]

theorem length_dictionaries (keys values : List Value) (n : Nat) :
    (dictionaries keys values n).length = keys.length.choose n * values.length ^ n := by
  simp only [dictionaries, List.length_flatMap, List.length_map, length_power]
  rw [List.map_const', List.sum_replicate_nat, combinations_eq_choices, length_choices]

/-- The lengths of a node, not those of its subtrees. -/
def ownLengths : DomainTree → List Nat
  | .int _ | .float _ | .bool _ => []
  | .str _ lengths | .list _ lengths | .tuple _ lengths | .set _ lengths | .dict _ _ lengths =>
    lengths.exhaustive

/-- The count of a node, if its subtrees are counted exactly or its lengths are those of
things that can be held in memory. -/
theorem counts_of_children {t : DomainTree}
    (h : ∀ c ∈ t.children, Counts c.exhaustiveCount c.values.length)
    (hlengths : (∀ c ∈ t.children, c.exhaustiveCount = c.values.length) ∨
      ∀ n ∈ t.ownLengths, n < 2 ^ 64) :
    Counts t.exhaustiveCount t.values.length := by
  have hchoose {c : DomainTree} (hc : c ∈ t.children) {n : Nat} (hn : n ∈ t.ownLengths) :
      c.exhaustiveCount = c.values.length ∨ n < 2 ^ 64 :=
    hlengths.imp (fun hexact => hexact c hc) fun hsmall => hsmall n hn
  cases t with
  | int | float | bool => exact .inl (List.length_map _).symm
  | str alphabet lengths =>
    rw [values, List.length_map, length_flatMap_power]
    exact counts_sumOver fun n _ => counts_power _ n
  | list element lengths | tuple element lengths =>
    have helement := h element List.mem_cons_self
    rw [exhaustiveCount, values, List.length_map, length_flatMap_power]
    exact counts_sumOver fun n _ => helement.pow n
  | set element lengths =>
    have helement := h element List.mem_cons_self
    rw [exhaustiveCount, values, List.length_map, length_flatMap_combinations]
    exact counts_sumOver fun n hn => helement.choose (hchoose List.mem_cons_self hn)
  | dict key value lengths =>
    obtain ⟨hkey, hvalue⟩ := List.forall_mem_cons.mp h
    replace hvalue := hvalue value List.mem_cons_self
    rw [exhaustiveCount, values, List.length_flatMap]
    simp only [length_dictionaries]
    exact counts_sumOver fun n hn =>
      (hkey.choose (hchoose List.mem_cons_self hn)).mul (hvalue.pow n)

/-- The count of a tree of any size, as long as its lengths are below `2 ^ 64`. -/
theorem counts_exhaustiveCount {t : DomainTree}
    (h : ∀ n ∈ t.nodes, ∀ k ∈ n.ownLengths, k < 2 ^ 64) :
    Counts t.exhaustiveCount t.values.length := by
  induction t using children_induction with
  | node t ih =>
    obtain ⟨hchildren, ht⟩ := forall_mem_nodes.mp h
    exact counts_of_children (fun c hc => ih c hc (hchildren c hc)) (.inr ht)

/-! ## The check -/

/-- No node of the tree has more values than the limit. -/
def Within (t : DomainTree) : Prop :=
  ∀ n ∈ t.nodes, n.values.length ≤ maxExhaustive

/-- Counts are exact in a tree whose nodes are all within the limit, whether by count or by
size. -/
theorem exact_of_within {t : DomainTree}
    (h : ∀ n ∈ t.nodes, n.exhaustiveCount ≤ maxExhaustive ∨ n.values.length ≤ maxExhaustive) :
    ∀ n ∈ t.nodes, n.exhaustiveCount = n.values.length := by
  induction t using children_induction with
  | node t ih =>
    obtain ⟨hchildren, ht⟩ := forall_mem_nodes.mp h
    have hexact : ∀ c ∈ t.children, ∀ n ∈ c.nodes, n.exhaustiveCount = n.values.length :=
      fun c hc => ih c hc (hchildren c hc)
    have hchild : ∀ c ∈ t.children, c.exhaustiveCount = c.values.length :=
      fun c hc => hexact c hc c (mem_nodes_self c)
    have hcounts : Counts t.exhaustiveCount t.values.length :=
      counts_of_children (fun c hc => .inl (hchild c hc)) (.inl hchild)
    have hsize : t.values.length ≤ maxExhaustive := by
      rcases ht with hcount | hsize
      · exact hcounts.le_iff.mp hcount
      · exact hsize
    exact forall_mem_nodes.mpr ⟨hexact, hcounts.eq_of_le hsize⟩

theorem exhaustiveCount_eq {t : DomainTree} (h : t.Within) :
    ∀ n ∈ t.nodes, n.exhaustiveCount = n.values.length :=
  exact_of_within fun n hn => .inr (h n hn)

theorem within_iff {t : DomainTree} :
    t.Within ↔ ∀ n ∈ t.nodes, n.exhaustiveCount ≤ maxExhaustive := by
  constructor
  · intro h n hn
    rw [exhaustiveCount_eq h n hn]
    exact h n hn
  · intro h n hn
    rw [← exact_of_within (fun m hm => .inl (h m hm)) n hn]
    exact h n hn

theorem checkNode_eq_ok {t : DomainTree} :
    t.checkNode = .ok () ↔ t.exhaustiveCount ≤ maxExhaustive := by
  rw [checkNode, ← Nat.not_lt]
  split
  · next h =>
    constructor
    · intro heq
      cases heq
    · intro hle
      exact absurd h hle
  · next h =>
    constructor
    · intro _
      exact h
    · intro _
      rfl

theorem checkExpansion_eq_ok {t : DomainTree} : t.checkExpansion = .ok () ↔ t.Within := by
  rw [within_iff]
  induction t with
  | int | float | bool | str =>
    rw [checkExpansion, checkNode_eq_ok, nodes, List.forall_mem_singleton]
  | list element lengths ih | tuple element lengths ih | set element lengths ih =>
    rw [checkExpansion, bind_eq_ok, nodes, List.forall_mem_append, List.forall_mem_singleton,
      ← ih, ← checkNode_eq_ok]
    exact ⟨fun ⟨_, h, hnode⟩ => ⟨h, hnode⟩, fun ⟨h, hnode⟩ => ⟨(), h, hnode⟩⟩
  | dict key value lengths ihk ihv =>
    simp only [checkExpansion, bind_eq_ok]
    rw [nodes, List.forall_mem_append, List.forall_mem_append, List.forall_mem_singleton,
      ← ihk, ← ihv, ← checkNode_eq_ok]
    exact ⟨fun ⟨_, hk, _, hv, hnode⟩ => ⟨⟨hk, hv⟩, hnode⟩,
      fun ⟨⟨hk, hv⟩, hnode⟩ => ⟨(), hk, (), hv, hnode⟩⟩

theorem checkNode_eq_error {t : DomainTree} {e : SpecError} (h : t.checkNode = .error e) :
    e = .tooManyValues (.node t.kind) t.exhaustiveCount := by
  unfold checkNode at h
  split at h
  · exact (Except.error.inj h).symm
  · cases h

/-- A tree is refused with the count of one of its nodes. -/
theorem checkExpansion_eq_error {t : DomainTree} {e : SpecError} (h : t.checkExpansion = .error e) :
    ∃ n ∈ t.nodes, e = .tooManyValues (.node n.kind) n.exhaustiveCount := by
  induction t with
  | int | float | bool | str => exact ⟨_, List.mem_singleton_self _, checkNode_eq_error h⟩
  | list element _ ih | tuple element _ ih | set element _ ih =>
    rcases bind_eq_error.mp h with helement | ⟨_, -, hnode⟩
    · obtain ⟨n, hn, he⟩ := ih helement
      exact ⟨n, List.mem_append_left _ hn, he⟩
    · exact ⟨_, mem_nodes_self _, checkNode_eq_error hnode⟩
  | dict key value _ ihk ihv =>
    rcases bind_eq_error.mp h with hkey | ⟨_, -, hrest⟩
    · obtain ⟨n, hn, he⟩ := ihk hkey
      exact ⟨n, List.mem_append_left _ (List.mem_append_left _ hn), he⟩
    rcases bind_eq_error.mp hrest with hvalue | ⟨_, -, hnode⟩
    · obtain ⟨n, hn, he⟩ := ihv hvalue
      exact ⟨n, List.mem_append_left _ (List.mem_append_right _ hn), he⟩
    · exact ⟨_, mem_nodes_self _, checkNode_eq_error hnode⟩

/-! ## The base set -/

theorem counts_foldl_mul {ts : List DomainTree}
    (h : ∀ t ∈ ts, Counts t.exhaustiveCount t.values.length) {acc size : Nat}
    (hacc : Counts acc size) :
    Counts (ts.foldl (fun acc t => mul acc t.exhaustiveCount) acc)
      (size * (ts.map fun t => t.values.length).prod) := by
  induction ts generalizing acc size with
  | nil =>
    rw [List.map_nil, List.prod_nil, Nat.mul_one]
    exact hacc
  | cons t ts ih =>
    obtain ⟨ht, hts⟩ := List.forall_mem_cons.mp h
    rw [List.foldl_cons, List.map_cons, List.prod_cons, ← Nat.mul_assoc]
    exact ih hts (hacc.mul ht)

theorem length_inputs (parameters : List DomainTree) :
    (inputs parameters).length = (parameters.map fun t => t.values.length).prod := by
  rw [inputs, length_product, List.map_map]
  rfl

theorem counts_baseSetSize_of_counts {parameters : List DomainTree}
    (h : ∀ t ∈ parameters, Counts t.exhaustiveCount t.values.length) :
    Counts (baseSetSize parameters) (inputs parameters).length := by
  rw [length_inputs, ← Nat.one_mul (List.prod _)]
  exact counts_foldl_mul h (.inl rfl)

theorem counts_baseSetSize {parameters : List DomainTree} (h : ∀ t ∈ parameters, t.Within) :
    Counts (baseSetSize parameters) (inputs parameters).length :=
  counts_baseSetSize_of_counts fun t ht =>
    .inl (exhaustiveCount_eq (h t ht) t (mem_nodes_self t))

end Divergence.DomainTree
