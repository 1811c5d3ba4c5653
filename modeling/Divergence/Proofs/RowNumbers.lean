/-
# `Divergence.Proofs.RowNumbers` — which row is where

The rows of a product are numbered in mixed radix: the factors are the places, their lengths the
radices, and the row with a number has at each place the entry that the digit there says
(`product_by_number`).  The first factor is the most significant place, so it varies slowest.  The
same holds of the inputs that are enumerated, and of their places in every base set.

Products are built from the left, with what is held so far in front, while digits are taken apart
from the right, with what is left behind.  The two meet in `product_cons`: a product is also the
first factor before every row of the others.  Powers are built that way to begin with, and so they
are products of one factor with itself.
-/
import Divergence.Proofs.Positions

namespace Divergence

namespace Enumeration

variable {α : Type}

/-! ## Products from the front -/

theorem snocEach_consEach (items : List α) (rows : List (List α)) (last : List α) :
    snocEach (consEach items rows) last = consEach items (snocEach rows last) := by
  simp only [snocEach, consEach, List.flatMap_assoc, List.flatMap_map, List.map_flatMap,
    List.map_map]
  rfl

theorem foldl_snocEach_consEach (factors : List (List α)) (items : List α)
    (rows : List (List α)) :
    factors.foldl snocEach (consEach items rows) =
      consEach items (factors.foldl snocEach rows) := by
  induction factors generalizing rows with
  | nil => rfl
  | cons last factors ih => rw [List.foldl_cons, List.foldl_cons, snocEach_consEach, ih]

/-- A product is the first factor before every row of the others. -/
theorem product_cons (items : List α) (factors : List (List α)) :
    product (items :: factors) = consEach items (product factors) := by
  have hfirst : snocEach [[]] items = consEach items [[]] := by
    rw [snocEach, consEach, List.flatMap_singleton, List.map_eq_flatMap]
    rfl
  rw [product, List.foldl_cons, hfirst, foldl_snocEach_consEach, product]

/-- A power is a product of one factor with itself. -/
theorem power_eq_product (items : List α) (n : Nat) :
    power items n = product (List.replicate n items) := by
  induction n with
  | zero => rfl
  | succ n ih =>
    show consEach items (power items n) = _
    rw [ih, List.replicate_succ, product_cons]

/-! ## Rows by number -/

theorem getElem?_consEach (items : List α) (rows : List (List α)) (r : Nat) :
    (consEach items rows)[r]? =
      (items[r / rows.length]?).bind fun x => (rows[r % rows.length]?).map (x :: ·) := by
  induction items generalizing r with
  | nil => rfl
  | cons x items ih =>
    rw [consEach, List.flatMap_cons]
    by_cases hr : r < rows.length
    · rw [List.getElem?_append_left (by rwa [List.length_map]), List.getElem?_map,
        Nat.div_eq_of_lt hr, Nat.mod_eq_of_lt hr]
      rfl
    · have hle : rows.length ≤ r := Nat.not_lt.mp hr
      rw [List.getElem?_append_right (by rwa [List.length_map]), List.length_map]
      show (consEach items rows)[r - rows.length]? = _
      rcases Nat.eq_zero_or_pos rows.length with hnil | hpos
      · rw [ih, List.eq_nil_of_length_eq_zero hnil]
        simp
      · rw [ih, Nat.div_eq_sub_div hpos hle, Nat.mod_eq_sub_mod hle, List.getElem?_cons_succ]

/-- What the digit at a place is worth: the number of rows of the factors after it. -/
def weight (factors : List (List α)) (j : Nat) : Nat :=
  ((factors.drop (j + 1)).map List.length).prod

@[simp]
theorem weight_cons_zero (first : List α) (factors : List (List α)) :
    weight (first :: factors) 0 = (factors.map List.length).prod :=
  rfl

@[simp]
theorem weight_cons_succ (first : List α) (factors : List (List α)) (j : Nat) :
    weight (first :: factors) (j + 1) = weight factors j :=
  rfl

/-- A digit is the same of what is left when higher places are taken away. -/
theorem digit_mod {r n s l : Nat} (h : s * l ∣ n) : r % n / s % l = r / s % l := by
  rw [← Nat.mod_mul_right_div_self, ← Nat.mod_mul_right_div_self, Nat.mod_mod_of_dvd r h]

theorem weight_mul_length_dvd {factors : List (List α)} {j : Nat} {items : List α}
    (h : factors[j]? = some items) :
    weight factors j * items.length ∣ (factors.map List.length).prod := by
  obtain ⟨hj, rfl⟩ := List.getElem?_eq_some_iff.mp h
  have hsplit : factors = factors.take j ++ factors[j] :: factors.drop (j + 1) := by
    rw [← List.drop_eq_getElem_cons hj, List.take_append_drop]
  have hprod : (factors.map List.length).prod =
      ((factors.take j).map List.length).prod * (weight factors j * factors[j].length) := by
    conv_lhs => rw [hsplit]
    rw [List.map_append, List.prod_append, List.map_cons, List.prod_cons, weight,
      Nat.mul_comm factors[j].length]
  exact hprod ▸ Nat.dvd_mul_left _ _

/-- The row with a number has at each place the entry that the digit of the number says. -/
theorem getElem?_product {factors : List (List α)} {r : Nat} {row : List α}
    (h : (product factors)[r]? = some row) :
    row.length = factors.length ∧ ∀ j items, factors[j]? = some items →
      ∃ x, items[r / weight factors j % items.length]? = some x ∧ row[j]? = some x := by
  induction factors generalizing r row with
  | nil =>
    obtain rfl : row = [] := List.mem_singleton.mp (List.mem_of_getElem? h)
    exact ⟨rfl, fun j items hj => by cases hj⟩
  | cons first factors ih =>
    rw [product_cons, getElem?_consEach] at h
    obtain ⟨x, hx, htail⟩ := Option.bind_eq_some_iff.mp h
    obtain ⟨rest, hrest, rfl⟩ := Option.map_eq_some_iff.mp htail
    obtain ⟨hlength, hdigits⟩ := ih hrest
    rw [length_product] at hx hdigits
    refine ⟨congrArg Nat.succ hlength, fun j items hj => ?_⟩
    cases j with
    | zero =>
      cases hj
      have hlt : r / (factors.map List.length).prod < first.length :=
        (List.getElem?_eq_some_iff.mp hx).1
      exact ⟨x, by rwa [weight_cons_zero, Nat.mod_eq_of_lt hlt], rfl⟩
    | succ j =>
      have hlater : factors[j]? = some items := hj
      obtain ⟨y, hy, hget⟩ := hdigits j items hlater
      rw [digit_mod (weight_mul_length_dvd hlater)] at hy
      exact ⟨y, hy, hget⟩

end Enumeration

namespace BaseSet

open Divergence.DomainTree Divergence.Enumeration Divergence.Sampling

/-- Where no domain and no alphabet repeats an entry, an exhaustive input has its place in every
base set. -/
theorem getElem?_generate {parameters : List DomainTree} (h : ∀ t ∈ parameters, t.Distinct)
    {k : Nat} {input : Input} (hk : (inputs parameters)[k]? = some input) {σ : Type}
    (c : Chooser σ) (rounds : Nat) (s : σ) :
    (generate c parameters rounds s).1[k]? = some input := by
  obtain ⟨hlt, rfl⟩ := List.getElem?_eq_some_iff.mp hk
  rw [generate_eq]
  exact List.prefix_iff_getElem?.mp (prefix_eraseDups_append (nodup_inputs h) _) k hlt

/-- A product has as many rows as the product of the lengths says, and the row with a number has at
each place the entry of that factor that the digit there says; a power is the product of as many
copies of one list.  So an exhaustive input is determined by its number, the first parameter
varying slowest, and that number is also its place in the base set, whatever is drawn. -/
theorem product_by_number :
    (∀ {α : Type} (factors : List (List α)),
      (product factors).length = (factors.map List.length).prod ∧
      ∀ r < (factors.map List.length).prod, ∃ row, (product factors)[r]? = some row ∧
        row.length = factors.length ∧ ∀ j items, factors[j]? = some items →
          ∃ x, items[r / weight factors j % items.length]? = some x ∧ row[j]? = some x) ∧
    (∀ {α : Type} (items : List α) (n : Nat),
      power items n = product (List.replicate n items)) ∧
    ∀ parameters : List DomainTree, ∀ k < (inputs parameters).length,
      ∃ input, (inputs parameters)[k]? = some input ∧ input.length = parameters.length ∧
        (∀ j t, parameters[j]? = some t → ∃ v,
          t.values[k / weight (parameters.map values) j % t.values.length]? = some v ∧
            input[j]? = some v) ∧
        ((∀ t ∈ parameters, t.Distinct) → ∀ {σ : Type} (c : Chooser σ) (rounds : Nat) (s : σ),
          (generate c parameters rounds s).1[k]? = some input) := by
  refine ⟨fun factors => ⟨length_product factors, fun r hr => ?_⟩, power_eq_product, ?_⟩
  · rw [← length_product] at hr
    have hget := List.getElem?_eq_getElem hr
    exact ⟨_, hget, getElem?_product hget⟩
  · intro parameters k hk
    have hget := List.getElem?_eq_getElem hk
    obtain ⟨hlength, hdigits⟩ := getElem?_product hget
    rw [List.length_map] at hlength
    refine ⟨_, hget, hlength, fun j t ht => ?_, fun hdistinct σ c rounds s => ?_⟩
    · exact hdigits j t.values (by rw [List.getElem?_map, ht]; rfl)
    · exact getElem?_generate hdistinct hget c rounds s

/-- A truth value and one of three numbers. -/
def flagAndNumber : List DomainTree :=
  [.bool ⟨[true, false], []⟩, .int ⟨[7, 8, 9], []⟩]

/-- Number 4 has the digits 1 and 1. -/
theorem product_by_number_flagAndNumber :
    (4 < ([[0, 1], [7, 8, 9]].map List.length).prod ∧
      ∃ row, (product [[0, 1], [7, 8, 9]])[4]? = some row ∧ row[0]? = some 1 ∧
        row[1]? = some 8) ∧
    4 < (inputs flagAndNumber).length ∧ (∀ t ∈ flagAndNumber, t.Distinct) ∧
    ∀ (rounds : Nat) (s : Keystream),
      (generate Keystream.chooser flagAndNumber rounds s).1[4]? = some [.bool false, .int 8] := by
  obtain ⟨hproducts, -, hinputs⟩ := product_by_number
  have hdistinct : ∀ t ∈ flagAndNumber, t.Distinct := by decide
  have hlt : 4 < (inputs flagAndNumber).length := by
    rw [length_inputs]
    decide
  refine ⟨⟨by decide, ?_⟩, hlt, hdistinct, fun rounds s => ?_⟩
  · obtain ⟨row, hrow, -, hdigits⟩ := (hproducts [[0, 1], [7, 8, 9]]).2 4 (by decide)
    obtain ⟨x, hx, hfirst⟩ := hdigits 0 [0, 1] rfl
    obtain ⟨y, hy, hsecond⟩ := hdigits 1 [7, 8, 9] rfl
    cases hx
    cases hy
    exact ⟨row, hrow, hfirst, hsecond⟩
  · obtain ⟨input, -, hlength, hdigits, hplace⟩ := hinputs flagAndNumber 4 hlt
    obtain ⟨x, hx, hfirst⟩ := hdigits 0 _ rfl
    obtain ⟨y, hy, hsecond⟩ := hdigits 1 _ rfl
    cases hx
    cases hy
    have hinput : input = [.bool false, .int 8] := by
      match input, hlength, hfirst, hsecond with
      | [_, _], _, rfl, rfl => rfl
    exact hinput ▸ hplace hdistinct Keystream.chooser rounds s

end BaseSet

end Divergence
