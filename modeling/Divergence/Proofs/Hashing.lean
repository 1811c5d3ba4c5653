/-
# `Divergence.Proofs.Hashing` — values are equal if hashers cannot tell them apart

What a value feeds to a hasher is one list of words, whatever the hasher does
with them (`feed_eq_foldl`).  Every sequence says how many entries follow, so
the words of a value can be told from whatever comes after them, and a value is
determined by its words (`words_append_inj`).  So equal values, and only they,
are the same for every hasher.

With the laws of `Proofs/Orders` this makes order, equality and hashing of
values one thing.
-/
import Divergence.Proofs.Orders

namespace Divergence.Value

/-! ## Words -/

mutual

/-- All that a value feeds to a hasher, in order. -/
def words (v : Value) : List HashWord :=
  .kind v.rank ::
    match v with
    | .int i => [.int i]
    | .float x => [.bits x.bits]
    | .bool b => [.bool b]
    | .str s => [.str s]
    | .list items | .tuple items | .set items => .length items.length :: wordsOfItems items
    | .dict entries => .length entries.length :: wordsOfEntries entries

def wordsOfItems : List Value → List HashWord
  | [] => []
  | a :: as => words a ++ wordsOfItems as

def wordsOfEntries : List (Value × Value) → List HashWord
  | [] => []
  | (k, v) :: as => words k ++ words v ++ wordsOfEntries as

end

section Feed

variable {σ : Type} (write : σ → HashWord → σ)

theorem feedItems_eq_foldl {as : List Value}
    (h : ∀ a ∈ as, ∀ s, feed write s a = (words a).foldl write s) :
    ∀ s, feedItems write s as = (wordsOfItems as).foldl write s := by
  induction as with
  | nil => intro s; rfl
  | cons a as ih =>
    obtain ⟨ha, has⟩ := List.forall_mem_cons.mp h
    intro s
    rw [feedItems, wordsOfItems, List.foldl_append, ha, ih has]

theorem feedEntries_eq_foldl {as : List (Value × Value)}
    (h : ∀ a ∈ as, (∀ s, feed write s a.1 = (words a.1).foldl write s) ∧
      ∀ s, feed write s a.2 = (words a.2).foldl write s) :
    ∀ s, feedEntries write s as = (wordsOfEntries as).foldl write s := by
  induction as with
  | nil => intro s; rfl
  | cons a as ih =>
    obtain ⟨⟨hk, hv⟩, has⟩ := List.forall_mem_cons.mp h
    obtain ⟨k, v⟩ := a
    intro s
    rw [feedEntries, wordsOfEntries, List.foldl_append, List.foldl_append, hk, hv, ih has]

/-- A hasher is fed with the words of a value, one after the other. -/
theorem feed_eq_foldl (v : Value) : ∀ s, feed write s v = (words v).foldl write s := by
  induction v using Value.induction with
  | int | float | bool | str =>
    intro s
    rw [feed, words]
    rfl
  | list items ih | tuple items ih | set items ih =>
    intro s
    rw [feed, words]
    exact feedItems_eq_foldl write ih _
  | dict entries ih =>
    intro s
    rw [feed, words]
    exact feedEntries_eq_foldl write ih _

end Feed

/-! ## A value from its words -/

theorem wordsOfItems_append_inj {as : List Value}
    (h : ∀ a ∈ as, ∀ b r r', words a ++ r = words b ++ r' → a = b ∧ r = r') :
    ∀ bs r r', as.length = bs.length → wordsOfItems as ++ r = wordsOfItems bs ++ r' →
      as = bs ∧ r = r' := by
  induction as with
  | nil =>
    intro bs r r' hlength hwords
    obtain rfl := List.eq_nil_of_length_eq_zero hlength.symm
    exact ⟨rfl, hwords⟩
  | cons a as ih =>
    obtain ⟨ha, has⟩ := List.forall_mem_cons.mp h
    intro bs r r' hlength hwords
    obtain ⟨b, bs, rfl⟩ := List.exists_cons_of_length_eq_add_one hlength.symm
    rw [wordsOfItems, wordsOfItems, List.append_assoc, List.append_assoc] at hwords
    obtain ⟨rfl, hrest⟩ := ha b _ _ hwords
    obtain ⟨rfl, hr⟩ := ih has bs r r' (Nat.succ.inj hlength) hrest
    exact ⟨rfl, hr⟩

theorem wordsOfEntries_append_inj {as : List (Value × Value)}
    (h : ∀ a ∈ as, (∀ b r r', words a.1 ++ r = words b ++ r' → a.1 = b ∧ r = r') ∧
      ∀ b r r', words a.2 ++ r = words b ++ r' → a.2 = b ∧ r = r') :
    ∀ bs r r', as.length = bs.length → wordsOfEntries as ++ r = wordsOfEntries bs ++ r' →
      as = bs ∧ r = r' := by
  induction as with
  | nil =>
    intro bs r r' hlength hwords
    obtain rfl := List.eq_nil_of_length_eq_zero hlength.symm
    exact ⟨rfl, hwords⟩
  | cons a as ih =>
    obtain ⟨⟨hk, hv⟩, has⟩ := List.forall_mem_cons.mp h
    obtain ⟨k, v⟩ := a
    intro bs r r' hlength hwords
    obtain ⟨⟨k', v'⟩, bs, rfl⟩ := List.exists_cons_of_length_eq_add_one hlength.symm
    simp only [wordsOfEntries, List.append_assoc] at hwords
    obtain ⟨(rfl : k = k'), hvalue⟩ := hk k' _ _ hwords
    obtain ⟨(rfl : v = v'), hrest⟩ := hv v' _ _ hvalue
    obtain ⟨rfl, hr⟩ := ih has bs r r' (Nat.succ.inj hlength) hrest
    exact ⟨rfl, hr⟩

/-- The words of a value end where the value ends, and no other value has them. -/
theorem words_append_inj (a : Value) :
    ∀ b r r', words a ++ r = words b ++ r' → a = b ∧ r = r' := by
  induction a using Value.induction with
  | int i | bool i | str i =>
    intro b r r' h
    cases b <;> simp_all [words, rank]
  | float x =>
    intro b r r' h
    cases b <;> simp [words, rank] at h
    exact ⟨congrArg Value.float (congrArg Binary64.mk h.1), h.2⟩
  | list items ih | tuple items ih | set items ih =>
    intro b r r' h
    cases b <;> simp [words, rank] at h ⊢
    exact wordsOfItems_append_inj ih _ r r' h.1 h.2
  | dict entries ih =>
    intro b r r' h
    cases b <;> simp [words, rank] at h ⊢
    exact wordsOfEntries_append_inj ih _ r r' h.1 h.2

theorem words_inj {a b : Value} (h : words a = words b) : a = b :=
  (words_append_inj a b [] [] (congrArg (· ++ []) h)).1

/-- What every hasher takes for the same is the same: one that keeps all words is enough. -/
theorem eq_of_feed_eq {a b : Value}
    (h : ∀ {σ : Type} (write : σ → HashWord → σ) (s : σ), feed write s a = feed write s b) :
    a = b := by
  have hlog (v : Value) : feed (fun log word => word :: log) [] v = (words v).reverse := by
    rw [feed_eq_foldl, List.foldl_flip_cons_eq_append, List.append_nil, List.map_id']
  refine words_inj (List.reverse_inj.mp ?_)
  rw [← hlog a, ← hlog b, h]

/-! ## Order, equality and hashing -/

/-- Values are totally ordered, and the order leaves no two of them equal: what compares equal
has the same kind and the same contents throughout, doubles bit by bit.  That is equality of
values too, and values are equal if and only if they feed the same to every hasher. -/
theorem cmp_total_order :
    (∀ a b, cmp a b = (cmp b a).swap) ∧
    (∀ a b c, cmp a b = .lt → cmp b c = .lt → cmp a c = .lt) ∧
    (∀ a b, cmp a b = .eq ↔ a = b) ∧
    (∀ x y : Binary64, cmp (.float x) (.float y) = .eq ↔ x.bits = y.bits) ∧
    ∀ a b : Value, (a == b) = true ↔
      ∀ {σ : Type} (write : σ → HashWord → σ) (s : σ), feed write s a = feed write s b := by
  refine ⟨fun a => cmp_swap a, fun a => cmp_lt_trans a, fun a => cmp_eq_iff a, ?bits, ?hash⟩
  case bits =>
    intro x y
    rw [cmp_eq_iff, Value.float.injEq]
    constructor
    · rintro rfl
      rfl
    · exact congrArg Binary64.mk
  case hash =>
    intro a b
    rw [beq_iff_eq]
    constructor
    · rintro rfl σ write s
      rfl
    · exact eq_of_feed_eq

/-- The two zeros and a NaN, in lists. -/
theorem cmp_total_order_zeros :
    let negative := Value.list [.float (.zero true)]
    let positive := Value.list [.float (.zero false)]
    let nan := Value.list [.float (.quietNaN false)]
    cmp negative positive = .lt ∧ cmp positive nan = .lt ∧ cmp negative nan = .lt := by
  intro negative positive nan
  have hzeros : cmp negative positive = .lt := by decide
  have hnan : cmp positive nan = .lt := by decide
  exact ⟨hzeros, hnan, cmp_total_order.2.1 _ _ _ hzeros hnan⟩

end Divergence.Value
