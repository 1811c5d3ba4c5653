/-
# `Divergence.Proofs.Sequences` — what powers, products and choices list

Each of the three enumerations has a membership law, a law that repeats
nothing when the items are distinct, and a count, which holds whether they are
distinct or not.

`combinations` steps from one row of positions to the next.  The rows it goes
through are those of `choices` on the positions, so that everything else can
be proved by recursion on the items (`combinations_eq_choices`).
-/
import Divergence.Enumeration.Sequences
import Mathlib.Algebra.BigOperators.Group.List.Basic
import Mathlib.Data.List.Forall2
import Mathlib.Data.List.Nodup
import Mathlib.Data.Nat.Choose.Basic

namespace Divergence.Enumeration

variable {α : Type}

/-! ## Powers -/

theorem mem_consEach {items : List α} {rows : List (List α)} {row : List α} :
    row ∈ consEach items rows ↔ ∃ x ∈ items, ∃ rest ∈ rows, x :: rest = row := by
  simp only [consEach, List.mem_flatMap, List.mem_map]

theorem mem_power {items : List α} {n : Nat} {row : List α} :
    row ∈ power items n ↔ row.length = n ∧ ∀ x ∈ row, x ∈ items := by
  induction n generalizing row with
  | zero =>
    show row ∈ [[]] ↔ _
    rw [List.mem_singleton, List.length_eq_zero_iff]
    constructor
    · rintro rfl
      exact ⟨rfl, fun x hx => absurd hx List.not_mem_nil⟩
    · exact fun h => h.1
  | succ n ih =>
    show row ∈ consEach items (power items n) ↔ _
    rw [mem_consEach]
    constructor
    · rintro ⟨x, hx, rest, hrest, rfl⟩
      obtain ⟨hlen, hmem⟩ := ih.mp hrest
      exact ⟨by rw [List.length_cons, hlen], List.forall_mem_cons.mpr ⟨hx, hmem⟩⟩
    · rintro ⟨hlen, hmem⟩
      cases row with
      | nil => cases hlen
      | cons x rest =>
        obtain ⟨hx, hrest⟩ := List.forall_mem_cons.mp hmem
        exact ⟨x, hx, rest, ih.mpr ⟨Nat.succ.inj hlen, hrest⟩, rfl⟩

theorem nodup_consEach {items : List α} {rows : List (List α)} (hi : items.Nodup)
    (hr : rows.Nodup) : (consEach items rows).Nodup := by
  refine List.nodup_flatMap.mpr ⟨fun x _ => hr.map (List.cons_injective), ?_⟩
  refine hi.imp fun {x y} hxy row hx hy => hxy ?_
  obtain ⟨r, -, rfl⟩ := List.mem_map.mp hx
  obtain ⟨r', -, heq⟩ := List.mem_map.mp hy
  exact (List.cons.inj heq).1.symm

theorem nodup_power {items : List α} (h : items.Nodup) (n : Nat) : (power items n).Nodup := by
  induction n with
  | zero => exact List.nodup_singleton _
  | succ n ih => exact nodup_consEach h ih

theorem length_power (items : List α) (n : Nat) :
    (power items n).length = items.length ^ n := by
  induction n with
  | zero => rfl
  | succ n ih =>
    show (consEach items (power items n)).length = _
    simp only [consEach, List.length_flatMap, List.length_map, ih]
    rw [List.map_const', List.sum_replicate_nat, Nat.pow_succ, Nat.mul_comm]

/-! ## Products -/

theorem length_snocEach (rows : List (List α)) (items : List α) :
    (snocEach rows items).length = rows.length * items.length := by
  simp only [snocEach, List.length_flatMap, List.length_map]
  rw [List.map_const', List.sum_replicate_nat]

theorem length_foldl_snocEach (factors rows : List (List α)) :
    (factors.foldl snocEach rows).length = rows.length * (factors.map List.length).prod := by
  induction factors generalizing rows with
  | nil => rw [List.foldl_nil, List.map_nil, List.prod_nil, Nat.mul_one]
  | cons items factors ih =>
    rw [List.foldl_cons, ih, length_snocEach, List.map_cons, List.prod_cons, Nat.mul_assoc]

theorem length_product (factors : List (List α)) :
    (product factors).length = (factors.map List.length).prod := by
  rw [product, length_foldl_snocEach, List.length_singleton, Nat.one_mul]

theorem mem_snocEach {rows : List (List α)} {items : List α} {row : List α} :
    row ∈ snocEach rows items ↔ ∃ first ∈ rows, ∃ x ∈ items, first ++ [x] = row := by
  simp only [snocEach, List.mem_flatMap, List.mem_map]

theorem mem_foldl_snocEach {factors rows : List (List α)} {row : List α} :
    row ∈ factors.foldl snocEach rows ↔
      ∃ first ∈ rows, ∃ rest, List.Forall₂ (· ∈ ·) rest factors ∧ first ++ rest = row := by
  induction factors generalizing rows with
  | nil => simp [List.forall₂_nil_right_iff]
  | cons items factors ih =>
    simp only [List.foldl_cons, ih, mem_snocEach, List.forall₂_cons_right_iff]
    constructor
    · rintro ⟨_, ⟨first, hfirst, x, hx, rfl⟩, rest, hrest, rfl⟩
      exact ⟨first, hfirst, x :: rest, ⟨x, rest, hx, hrest, rfl⟩, by simp⟩
    · rintro ⟨first, hfirst, _, ⟨x, rest, hx, hrest, rfl⟩, rfl⟩
      exact ⟨first ++ [x], ⟨first, hfirst, x, hx, rfl⟩, rest, hrest, by simp⟩

theorem mem_product {factors : List (List α)} {row : List α} :
    row ∈ product factors ↔ List.Forall₂ (· ∈ ·) row factors := by
  simp [product, mem_foldl_snocEach]

theorem nodup_snocEach {rows : List (List α)} {items : List α} (hr : rows.Nodup)
    (hi : items.Nodup) : (snocEach rows items).Nodup := by
  refine List.nodup_flatMap.mpr ⟨fun row _ => hi.map fun x y hxy => ?_, ?_⟩
  · exact List.singleton_inj.mp (List.append_cancel_left hxy)
  · refine hr.imp fun {row row'} hne long hrow hrow' => hne ?_
    obtain ⟨x, -, rfl⟩ := List.mem_map.mp hrow
    obtain ⟨y, -, heq⟩ := List.mem_map.mp hrow'
    exact (List.append_inj_left' heq rfl).symm

theorem nodup_product {factors : List (List α)} (h : ∀ items ∈ factors, items.Nodup) :
    (product factors).Nodup := by
  have hfold {rows : List (List α)} (hr : rows.Nodup) : (factors.foldl snocEach rows).Nodup := by
    induction factors generalizing rows with
    | nil => exact hr
    | cons items factors ih =>
      obtain ⟨hitems, hfactors⟩ := List.forall_mem_cons.mp h
      exact ih hfactors (nodup_snocEach hr hitems)
  exact hfold (List.nodup_singleton _)

/-! ## Choices -/

theorem mem_choices {k : Nat} {xs row : List α} :
    row ∈ choices k xs ↔ row.Sublist xs ∧ row.length = k := by
  induction xs generalizing k row with
  | nil => cases k with
    | zero => simp [choices]
    | succ k =>
      rw [choices, List.sublist_nil]
      constructor
      · exact fun h => absurd h List.not_mem_nil
      · rintro ⟨rfl, hlen⟩
        cases hlen
  | cons x xs ih => cases k with
    | zero =>
      rw [choices, List.mem_singleton, List.length_eq_zero_iff]
      constructor
      · rintro rfl
        exact ⟨List.nil_sublist _, rfl⟩
      · exact fun h => h.2
    | succ k =>
      simp only [choices, List.mem_append, List.mem_map]
      constructor
      · rintro (⟨rest, hrest, rfl⟩ | hrow)
        · obtain ⟨hsub, hlen⟩ := ih.mp hrest
          exact ⟨hsub.cons_cons x, by rw [List.length_cons, hlen]⟩
        · obtain ⟨hsub, hlen⟩ := ih.mp hrow
          exact ⟨hsub.cons x, hlen⟩
      · rintro ⟨hsub, hlen⟩
        cases hsub with
        | cons _ hsub => exact .inr (ih.mpr ⟨hsub, hlen⟩)
        | cons_cons _ hsub => exact .inl ⟨_, ih.mpr ⟨hsub, Nat.succ.inj hlen⟩, rfl⟩

theorem nodup_choices {xs : List α} (h : xs.Nodup) (k : Nat) : (choices k xs).Nodup := by
  induction xs generalizing k with
  | nil => cases k with
    | zero => exact List.nodup_singleton _
    | succ k => exact List.nodup_nil
  | cons x xs ih => cases k with
    | zero => exact List.nodup_singleton _
    | succ k =>
      obtain ⟨hx, hxs⟩ := List.nodup_cons.mp h
      refine List.nodup_append.mpr ⟨(ih hxs k).map List.cons_injective, ih hxs (k + 1), ?_⟩
      -- the rows of the first half hold `x`, those of the second do not
      rintro row hrow _ hrow' rfl
      obtain ⟨rest, -, rfl⟩ := List.mem_map.mp hrow
      exact hx ((mem_choices.mp hrow').1.subset List.mem_cons_self)

theorem length_choices (k : Nat) (xs : List α) :
    (choices k xs).length = xs.length.choose k := by
  induction xs generalizing k with
  | nil => cases k <;> rfl
  | cons x xs ih => cases k with
    | zero => rw [choices, Nat.choose_zero_right]; rfl
    | succ k =>
      rw [choices, List.length_append, List.length_map, ih, ih, List.length_cons,
        Nat.choose_succ_succ]

/-! ## The loop over rows of positions -/

theorem map_filterMap_choices {β : Type} {f : α → Option β} {xs : List α}
    (h : ∀ x ∈ xs, (f x).isSome) (k : Nat) :
    (choices k xs).map (List.filterMap f) = choices k (xs.filterMap f) := by
  induction xs generalizing k with
  | nil => cases k <;> rfl
  | cons x xs ih => cases k with
    | zero => rw [choices, choices]; rfl
    | succ k =>
      obtain ⟨hx, hxs⟩ := List.forall_mem_cons.mp h
      obtain ⟨y, hy⟩ := Option.isSome_iff_exists.mp hx
      have hcons : (List.filterMap f ∘ (x :: ·)) = ((y :: ·) ∘ List.filterMap f) := by
        funext row
        exact List.filterMap_cons_some hy
      rw [choices, List.map_append, List.map_map, hcons, ← List.map_map, ih hxs, ih hxs,
        List.filterMap_cons_some hy, choices]

theorem map_getElem?_range (items : List α) :
    (List.range items.length).map (fun i => items.toArray[i]?) = items.map some := by
  refine List.ext_getElem (by simp) fun i h₁ h₂ => ?_
  simp only [List.length_map] at h₂
  simp [h₂]

theorem filterMap_getElem?_range (items : List α) :
    (List.range items.length).filterMap (fun i => items.toArray[i]?) = items := by
  calc (List.range items.length).filterMap (fun i => items.toArray[i]?)
      = ((List.range items.length).map fun i => items.toArray[i]?).filterMap id := by
        rw [List.filterMap_map]; rfl
    _ = (items.map some).filterMap id := by rw [map_getElem?_range]
    _ = items := by rw [List.filterMap_map]; exact List.filterMap_some

/-- The loop lists the choices from its row on, after those found before. -/
theorem choicesFrom_eq (items : Array α) (found : List (List α)) (row : List Nat) :
    choicesFrom items found row =
      found.reverse ++ (row :: rowsAfter items.size row).map (itemsAt items) := by
  fun_induction choicesFrom items found row with
  | case1 found row h =>
    rw [rowsAfter_eq, h, List.reverse_cons, List.map_singleton]
  | case2 found row next h ih =>
    rw [ih, List.map_cons (l := rowsAfter _ row), rowsAfter_eq items.size row, h,
      List.reverse_cons, List.append_assoc, List.singleton_append]

theorem combinations_eq_choices (items : List α) (k : Nat) :
    combinations items k = choices k items := by
  unfold combinations
  split
  · next h => rw [choices_eq_nil h]
  · next h =>
    have hrows : List.range k :: rowsAfter items.length (List.range k) =
        choices k (List.range items.length) := by
      rw [List.range_eq_range', List.range_eq_range', choices_range' k 0 _ (by omega),
        Nat.zero_add]
    rw [choicesFrom_eq, List.size_toArray, hrows, List.reverse_nil, List.nil_append]
    show (choices k (List.range items.length)).map (List.filterMap fun i => items.toArray[i]?) = _
    rw [map_filterMap_choices _ k, filterMap_getElem?_range]
    intro i hi
    simpa using hi

end Divergence.Enumeration
