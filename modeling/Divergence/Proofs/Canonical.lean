/-
# `Divergence.Proofs.Canonical` — sorted and without repetition

`Ordered.byKey` sorts by key and drops every entry whose successor has an
equal key.  What comes out has strictly increasing keys, and every key that
went in.  A list whose keys are distinct is only rearranged, so it is
determined, up to order, by its canonical form; and a list that is canonical
already is the canonical form of all its rearrangements.
-/
import Divergence.Ordered
import Mathlib.Data.List.Nodup

namespace Divergence.Ordered

variable {α κ : Type} {key : α → κ} {cmp : κ → κ → Ordering}

/-- The keys of the entries are strictly increasing. -/
def Increasing (key : α → κ) (cmp : κ → κ → Ordering) (entries : List α) : Prop :=
  entries.Pairwise fun a b => cmp (key a) (key b) = .lt

/-! ## Dropping entries with an equal successor -/

theorem dropEqual_sublist (entries : List α) :
    (dropEqual key cmp entries).Sublist entries := by
  fun_induction dropEqual key cmp entries with
  | case1 => exact List.Sublist.refl _
  | case2 a => exact List.Sublist.refl _
  | case3 a b rest _ ih => exact ih.cons a
  | case4 a b rest _ ih => exact ih.cons_cons a

theorem dropEqual_eq_self {entries : List α} (h : Increasing key cmp entries) :
    dropEqual key cmp entries = entries := by
  fun_induction dropEqual key cmp entries with
  | case1 => rfl
  | case2 a => rfl
  | case3 a b rest heq ih =>
    have hlt : cmp (key a) (key b) = .lt := (List.pairwise_cons.mp h).1 b List.mem_cons_self
    rw [hlt] at heq
    cases heq
  | case4 a b rest _ ih => rw [ih (List.pairwise_cons.mp h).2]

section Trans

variable [Std.TransCmp cmp]

theorem increasing_dropEqual {entries : List α}
    (h : entries.Pairwise fun a b => (cmp (key a) (key b)).isLE) :
    Increasing key cmp (dropEqual key cmp entries) := by
  fun_induction dropEqual key cmp entries with
  | case1 => exact List.Pairwise.nil
  | case2 a => exact List.pairwise_singleton _ a
  | case3 a b rest _ ih => exact ih (List.pairwise_cons.mp h).2
  | case4 a b rest hne ih =>
    obtain ⟨ha, hrest⟩ := List.pairwise_cons.mp h
    refine List.pairwise_cons.mpr ⟨fun x hx => ?_, ih hrest⟩
    have hab : cmp (key a) (key b) = .lt := by
      rcases Ordering.isLE_iff_eq_lt_or_eq_eq.mp (ha b List.mem_cons_self) with hlt | heq
      · exact hlt
      · exact absurd (by rw [heq]; rfl) hne
    rcases List.mem_cons.mp ((dropEqual_sublist _).subset hx) with rfl | hx
    · exact hab
    · exact Std.TransCmp.lt_of_lt_of_isLE hab ((List.pairwise_cons.mp hrest).1 x hx)

theorem exists_mem_dropEqual {entries : List α} :
    ∀ a ∈ entries, ∃ b ∈ dropEqual key cmp entries, cmp (key a) (key b) = .eq := by
  fun_induction dropEqual key cmp entries with
  | case1 => exact fun a h => absurd h List.not_mem_nil
  | case2 b =>
    intro a h
    rw [List.mem_singleton.mp h]
    exact ⟨b, List.mem_cons_self, Std.ReflCmp.compare_self⟩
  | case3 b c rest heq ih =>
    intro a h
    rcases List.mem_cons.mp h with rfl | h
    · obtain ⟨d, hd, hcd⟩ := ih c List.mem_cons_self
      exact ⟨d, hd, Std.TransCmp.eq_trans (eq_of_beq heq) hcd⟩
    · exact ih a h
  | case4 b c rest _ ih =>
    intro a h
    rcases List.mem_cons.mp h with rfl | h
    · exact ⟨a, List.mem_cons_self, Std.ReflCmp.compare_self⟩
    · obtain ⟨d, hd, had⟩ := ih a h
      exact ⟨d, List.mem_cons_of_mem _ hd, had⟩

/-! ## Canonical forms -/

/-- Of two keys one is not above the other, so that entries can be sorted. -/
theorem isLE_or_isLE (cmp : κ → κ → Ordering) [Std.TransCmp cmp] (k k' : κ) :
    ((cmp k k').isLE || (cmp k' k).isLE) = true := by
  rw [@Std.OrientedCmp.eq_swap _ cmp _ k']
  cases cmp k k' <;> rfl

theorem pairwise_sorted (entries : List α) :
    (entries.mergeSort fun a b => (cmp (key a) (key b)).isLE).Pairwise
      fun a b => (cmp (key a) (key b)).isLE := by
  refine List.pairwise_mergeSort (fun a b c => ?_) (fun a b => ?_) entries
  · exact Std.TransCmp.isLE_trans
  · exact isLE_or_isLE cmp (key a) (key b)

theorem increasing_byKey (entries : List α) : Increasing key cmp (byKey key cmp entries) :=
  increasing_dropEqual (pairwise_sorted entries)

omit [Std.TransCmp cmp] in
theorem mem_of_mem_byKey {entries : List α} {a : α} (h : a ∈ byKey key cmp entries) :
    a ∈ entries :=
  (List.mergeSort_perm _ _).mem_iff.mp ((dropEqual_sublist _).subset h)

theorem exists_mem_byKey {entries : List α} {a : α} (h : a ∈ entries) :
    ∃ b ∈ byKey key cmp entries, cmp (key a) (key b) = .eq :=
  exists_mem_dropEqual a ((List.mergeSort_perm _ _).mem_iff.mpr h)

theorem nodup_keys {entries : List α} (h : Increasing key cmp entries) :
    (entries.map key).Nodup := by
  refine List.pairwise_map.mpr (h.imp fun {a b} hlt heq => ?_)
  rw [heq, @Std.ReflCmp.compare_self _ cmp] at hlt
  cases hlt

/-- Two canonical lists of the same entries are equal. -/
theorem eq_of_perm {as bs : List α} (ha : Increasing key cmp as) (hb : Increasing key cmp bs)
    (h : as.Perm bs) : as = bs := by
  refine List.Perm.eq_of_pairwise (fun a b _ _ hab hba => ?_) ha hb h
  rw [@Std.OrientedCmp.eq_swap _ cmp, hba] at hab
  cases hab

section LawfulEq

variable [Std.LawfulEqCmp cmp]

/-- Entries with distinct keys are only rearranged. -/
theorem byKey_perm {entries : List α} (h : (entries.map key).Nodup) :
    (byKey key cmp entries).Perm entries := by
  have hperm := List.mergeSort_perm entries fun a b => (cmp (key a) (key b)).isLE
  have hne := List.pairwise_map.mp ((hperm.map key).nodup_iff.mpr h)
  have hlt : Increasing key cmp (entries.mergeSort fun a b => (cmp (key a) (key b)).isLE) := by
    refine ((pairwise_sorted entries).and hne).imp fun {a b} hab => ?_
    rcases Ordering.isLE_iff_eq_lt_or_eq_eq.mp hab.1 with hlt | heq
    · exact hlt
    · exact absurd (Std.LawfulEqCmp.eq_of_compare heq) hab.2
  rw [byKey, dropEqual_eq_self hlt]
  exact hperm

/-- A canonical list is the canonical form of its rearrangements. -/
theorem byKey_eq_of_perm {as bs : List α} (ha : Increasing key cmp as) (h : bs.Perm as) :
    byKey key cmp bs = as :=
  eq_of_perm (increasing_byKey bs) ha
    ((byKey_perm ((h.map key).nodup_iff.mpr (nodup_keys ha))).trans h)

/-- An entry with the key of an entry of a canonical list is that entry. -/
theorem Increasing.eq_of_key {entries : List α} (h : Increasing key cmp entries) {a b : α}
    (ha : a ∈ entries) (hb : b ∈ entries) (hab : cmp (key a) (key b) = .eq) : a = b := by
  refine List.inj_on_of_nodup_map (nodup_keys h) ha hb ?_
  exact Std.LawfulEqCmp.eq_of_compare hab

/-- A canonical list is the canonical form of every list with the same entries, however often
they are repeated. -/
theorem byKey_eq_of_mem_iff {as bs : List α} (ha : Increasing key cmp as)
    (h : ∀ x, x ∈ bs ↔ x ∈ as) : byKey key cmp bs = as := by
  have hb : Increasing key cmp (byKey key cmp bs) := increasing_byKey bs
  refine eq_of_perm hb ha ((List.perm_ext_iff_of_nodup (.of_map key (nodup_keys hb))
    (.of_map key (nodup_keys ha))).mpr fun x => ⟨fun hx => (h x).mp (mem_of_mem_byKey hx), ?_⟩)
  intro hx
  obtain ⟨y, hy, hxy⟩ := @exists_mem_byKey _ _ key cmp _ bs x ((h x).mpr hx)
  have hyas : y ∈ as := (h y).mp (mem_of_mem_byKey hy)
  exact ha.eq_of_key hx hyas hxy ▸ hy

/-- What is canonical stays as it is. -/
theorem byKey_eq_self {entries : List α} (h : Increasing key cmp entries) :
    byKey key cmp entries = entries :=
  byKey_eq_of_perm h (List.Perm.refl entries)

/-- Two canonical lists with the same entries are equal. -/
theorem eq_of_mem_iff {as bs : List α} (ha : Increasing key cmp as) (hb : Increasing key cmp bs)
    (h : ∀ x, x ∈ as ↔ x ∈ bs) : as = bs := by
  rw [← byKey_eq_self ha, byKey_eq_of_mem_iff hb h]

/-- What can be left of as many entries as one of the lengths says: nothing of none, and at
least one of some. -/
def LeftOf (lengths : List Nat) (n : Nat) : Prop :=
  (n = 0 ∧ 0 ∈ lengths) ∨ ∃ length ∈ lengths, 0 < length ∧ 1 ≤ n ∧ n ≤ length

omit [Std.TransCmp cmp] [Std.LawfulEqCmp cmp] in
theorem length_byKey_le (entries : List α) : (byKey key cmp entries).length ≤ entries.length :=
  Nat.le_trans (dropEqual_sublist _).length_le (Nat.le_of_eq (List.length_mergeSort _))

omit [Std.LawfulEqCmp cmp] in
theorem leftOf_byKey {entries : List α} {lengths : List Nat} (h : entries.length ∈ lengths) :
    LeftOf lengths (byKey key cmp entries).length := by
  cases entries with
  | nil => exact .inl ⟨Nat.le_zero.mp (length_byKey_le []), h⟩
  | cons a rest =>
    obtain ⟨b, hb, -⟩ := @exists_mem_byKey _ _ key cmp _ (a :: rest) a List.mem_cons_self
    exact .inr ⟨_, h, Nat.succ_pos _, List.length_pos_of_mem hb, length_byKey_le _⟩

/-- Entries that go in by length come out by what is left of it.  To have as many as a length
says, one of the entries is repeated. -/
theorem exists_byKey_eq {es : List α} {lengths : List Nat} {P : α → Prop} :
    (∃ xs, (xs.length ∈ lengths ∧ ∀ x ∈ xs, P x) ∧ byKey key cmp xs = es) ↔
      LeftOf lengths es.length ∧ Increasing key cmp es ∧ ∀ x ∈ es, P x := by
  constructor
  · rintro ⟨xs, ⟨hlength, hxs⟩, rfl⟩
    exact ⟨leftOf_byKey hlength, increasing_byKey xs, fun x hx => hxs x (mem_of_mem_byKey hx)⟩
  · rintro ⟨hleft, hinc, hes⟩
    suffices h : ∃ xs : List α, xs.length ∈ lengths ∧ ∀ x, x ∈ xs ↔ x ∈ es by
      obtain ⟨xs, hlength, hmem⟩ := h
      exact ⟨xs, ⟨hlength, fun x hx => hes x ((hmem x).mp hx)⟩, byKey_eq_of_mem_iff hinc hmem⟩
    rcases hleft with ⟨hnil, hzero⟩ | ⟨length, hlength, -, hpos, hle⟩
    · exact ⟨es, hnil ▸ hzero, fun _ => Iff.rfl⟩
    · obtain ⟨e, he⟩ := List.exists_mem_of_length_pos hpos
      refine ⟨es ++ List.replicate (length - es.length) e, ?_, fun x => ?_⟩
      · rwa [List.length_append, List.length_replicate, Nat.add_sub_cancel' hle]
      · rw [List.mem_append, List.mem_replicate]
        exact or_iff_left_of_imp fun h => h.2 ▸ he

end LawfulEq

end Trans

/-! ## Sets of elements -/

section Elements

variable {cmp : α → α → Ordering} [Std.TransCmp cmp] [Std.LawfulEqCmp cmp]

theorem mem_elements {xs : List α} {x : α} : x ∈ elements cmp xs ↔ x ∈ xs := by
  constructor
  · exact mem_of_mem_byKey
  · intro h
    obtain ⟨y, hy, hxy⟩ := @exists_mem_byKey _ _ id cmp _ _ _ h
    have heq : x = y := Std.LawfulEqCmp.eq_of_compare hxy
    exact heq ▸ hy

omit [Std.LawfulEqCmp cmp] in
theorem nodup_elements (xs : List α) : (elements cmp xs).Nodup := by
  have h : ((elements cmp xs).map id).Nodup := nodup_keys (increasing_byKey xs)
  rwa [List.map_id] at h

end Elements

end Divergence.Ordered
