/-
# `Divergence.Proofs.Orders` — values and signatures are totally ordered

Sets and dictionaries are canonical, and signatures can be counted, only if
the comparisons behind them are total orders under which nothing but a value
itself compares equal to it.

The comparison of values recurses through lists of values and of entries.
`Value.induction` packs that nesting once: each law is proved for all values
from the law for the values inside.  Equality comes first, because the other
laws need to replace a value by one that compares equal to it.
-/
import Divergence.Signature

namespace Divergence

namespace Value

/-! ## Induction -/

/-- What holds of a value whenever it holds of the values inside holds of every value. -/
theorem induction {P : Value → Prop}
    (int : ∀ i, P (.int i)) (float : ∀ x, P (.float x)) (bool : ∀ b, P (.bool b))
    (str : ∀ s, P (.str s))
    (list : ∀ items, (∀ x ∈ items, P x) → P (.list items))
    (tuple : ∀ items, (∀ x ∈ items, P x) → P (.tuple items))
    (set : ∀ elements, (∀ x ∈ elements, P x) → P (.set elements))
    (dict : ∀ entries, (∀ e ∈ entries, P e.1 ∧ P e.2) → P (.dict entries)) :
    ∀ v, P v :=
  @Value.rec P (fun items => ∀ x ∈ items, P x) (fun entries => ∀ e ∈ entries, P e.1 ∧ P e.2)
    (fun e => P e.1 ∧ P e.2) int float bool str list tuple set dict
    (fun _ h => absurd h List.not_mem_nil)
    (fun _ _ hx hxs => List.forall_mem_cons.mpr ⟨hx, hxs⟩)
    (fun _ h => absurd h List.not_mem_nil)
    (fun _ _ he hes => List.forall_mem_cons.mpr ⟨he, hes⟩)
    (fun _ _ hk hv => ⟨hk, hv⟩)

/-! ## Equality -/

theorem cmpItems_eq_iff {as : List Value} (h : ∀ a ∈ as, ∀ b, cmp a b = .eq ↔ a = b) :
    ∀ bs, cmpItems as bs = .eq ↔ as = bs := by
  induction as with
  | nil => intro bs; cases bs <;> simp [cmpItems]
  | cons a as ih =>
    obtain ⟨ha, has⟩ := List.forall_mem_cons.mp h
    intro bs
    cases bs with
    | nil => simp [cmpItems]
    | cons b bs => rw [cmpItems, Ordering.then_eq_eq, ha, ih has, List.cons.injEq]

theorem cmpEntries_eq_iff {as : List (Value × Value)}
    (h : ∀ a ∈ as, (∀ b, cmp a.1 b = .eq ↔ a.1 = b) ∧ ∀ b, cmp a.2 b = .eq ↔ a.2 = b) :
    ∀ bs, cmpEntries as bs = .eq ↔ as = bs := by
  induction as with
  | nil => intro bs; cases bs <;> simp [cmpEntries]
  | cons a as ih =>
    obtain ⟨⟨hk, hv⟩, has⟩ := List.forall_mem_cons.mp h
    obtain ⟨k, v⟩ := a
    intro bs
    cases bs with
    | nil => simp [cmpEntries]
    | cons b bs =>
      obtain ⟨k', v'⟩ := b
      rw [cmpEntries, Ordering.then_eq_eq, Ordering.then_eq_eq, hk, hv, ih has, List.cons.injEq,
        Prod.mk.injEq]

/-- Only a value itself compares equal to it. -/
theorem cmp_eq_iff (a : Value) : ∀ b, cmp a b = .eq ↔ a = b := by
  induction a using Value.induction with
  | int i => intro b; cases b <;> simp [cmp, rank]
  | float x => intro b; cases b <;> simp [cmp, rank, Binary64.orderKey_inj]
  | bool p => intro b; cases b <;> simp [cmp, rank]
  | str s => intro b; cases b <;> simp [cmp, rank]
  | list items ih => intro b; cases b <;> simp [cmp, rank, cmpItems_eq_iff ih]
  | tuple items ih => intro b; cases b <;> simp [cmp, rank, cmpItems_eq_iff ih]
  | set elements ih => intro b; cases b <;> simp [cmp, rank, cmpItems_eq_iff ih]
  | dict entries ih => intro b; cases b <;> simp [cmp, rank, cmpEntries_eq_iff ih]

/-! ## Symmetry -/

theorem cmpItems_swap {as : List Value} (h : ∀ a ∈ as, ∀ b, cmp a b = (cmp b a).swap) :
    ∀ bs, cmpItems as bs = (cmpItems bs as).swap := by
  induction as with
  | nil => intro bs; cases bs <;> rfl
  | cons a as ih =>
    obtain ⟨ha, has⟩ := List.forall_mem_cons.mp h
    intro bs
    cases bs with
    | nil => rfl
    | cons b bs => rw [cmpItems, cmpItems, Ordering.swap_then, ← ha, ← ih has]

theorem cmpEntries_swap {as : List (Value × Value)}
    (h : ∀ a ∈ as, (∀ b, cmp a.1 b = (cmp b a.1).swap) ∧ ∀ b, cmp a.2 b = (cmp b a.2).swap) :
    ∀ bs, cmpEntries as bs = (cmpEntries bs as).swap := by
  induction as with
  | nil => intro bs; cases bs <;> rfl
  | cons a as ih =>
    obtain ⟨⟨hk, hv⟩, has⟩ := List.forall_mem_cons.mp h
    obtain ⟨k, v⟩ := a
    intro bs
    cases bs with
    | nil => rfl
    | cons b bs =>
      obtain ⟨k', v'⟩ := b
      rw [cmpEntries, cmpEntries, Ordering.swap_then, Ordering.swap_then, ← hk, ← hv, ← ih has]

/-- Comparing the other way round gives the opposite answer. -/
theorem cmp_swap (a : Value) : ∀ b, cmp a b = (cmp b a).swap := by
  induction a using Value.induction with
  | int i =>
    intro b
    cases b with
    | int j => exact Std.OrientedOrd.eq_swap
    | _ => rfl
  | float x =>
    intro b
    cases b with
    | float y => exact Std.OrientedOrd.eq_swap
    | _ => rfl
  | bool p =>
    intro b
    cases b with
    | bool q => exact Std.OrientedOrd.eq_swap
    | _ => rfl
  | str s =>
    intro b
    cases b with
    | str t => exact Std.OrientedOrd.eq_swap
    | _ => rfl
  | list items ih =>
    intro b
    cases b with
    | list items' => rw [cmp, cmp]; exact cmpItems_swap ih items'
    | _ => rfl
  | tuple items ih =>
    intro b
    cases b with
    | tuple items' => rw [cmp, cmp]; exact cmpItems_swap ih items'
    | _ => rfl
  | set elements ih =>
    intro b
    cases b with
    | set elements' => rw [cmp, cmp]; exact cmpItems_swap ih elements'
    | _ => rfl
  | dict entries ih =>
    intro b
    cases b with
    | dict entries' => rw [cmp, cmp]; exact cmpEntries_swap ih entries'
    | _ => rfl

/-! ## Transitivity

Between values of different kinds the ranks decide, so a chain that leaves a
kind never comes back to it. -/

theorem cmp_of_rank_ne {a b : Value} (h : a.rank ≠ b.rank) :
    cmp a b = compare a.rank b.rank := by
  cases a <;> cases b <;> first | rfl | exact absurd rfl h

theorem rank_le_of_lt {a b : Value} (h : cmp a b = .lt) : a.rank ≤ b.rank := by
  by_cases hr : a.rank = b.rank
  · exact Nat.le_of_eq hr
  · rw [cmp_of_rank_ne hr, Nat.compare_eq_lt] at h
    exact Nat.le_of_lt h

theorem lt_trans_of_rank_ne {a b c : Value} (hne : a.rank ≠ b.rank) (hab : cmp a b = .lt)
    (hbc : cmp b c = .lt) : cmp a c = .lt := by
  have hlt : a.rank < b.rank := Nat.lt_of_le_of_ne (rank_le_of_lt hab) hne
  have hac : a.rank < c.rank := Nat.lt_of_lt_of_le hlt (rank_le_of_lt hbc)
  rw [cmp_of_rank_ne (Nat.ne_of_lt hac), Nat.compare_eq_lt]
  exact hac

theorem cmpItems_cons_lt {a b : Value} {as bs : List Value} :
    cmpItems (a :: as) (b :: bs) = .lt ↔ cmp a b = .lt ∨ (a = b ∧ cmpItems as bs = .lt) := by
  rw [cmpItems, Ordering.then_eq_lt, cmp_eq_iff]

theorem cmpItems_lt_trans {as : List Value}
    (h : ∀ a ∈ as, ∀ b c, cmp a b = .lt → cmp b c = .lt → cmp a c = .lt) :
    ∀ bs cs, cmpItems as bs = .lt → cmpItems bs cs = .lt → cmpItems as cs = .lt := by
  induction as with
  | nil =>
    intro bs cs hab hbc
    cases cs with
    | nil => cases bs <;> cases hbc
    | cons c cs => rfl
  | cons a as ih =>
    obtain ⟨ha, has⟩ := List.forall_mem_cons.mp h
    intro bs cs hab hbc
    cases bs with
    | nil => cases hab
    | cons b bs => cases cs with
      | nil => cases hbc
      | cons c cs =>
        rw [cmpItems_cons_lt] at hab hbc ⊢
        rcases hab with hab | ⟨rfl, hab⟩
        · rcases hbc with hbc | ⟨rfl, -⟩
          · exact .inl (ha b c hab hbc)
          · exact .inl hab
        · rcases hbc with hbc | ⟨rfl, hbc⟩
          · exact .inl hbc
          · exact .inr ⟨rfl, ih has bs cs hab hbc⟩

theorem cmpEntries_cons_lt {k k' v v' : Value} {as bs : List (Value × Value)} :
    cmpEntries ((k, v) :: as) ((k', v') :: bs) = .lt ↔
      cmp k k' = .lt ∨
        (k = k' ∧ (cmp v v' = .lt ∨ (v = v' ∧ cmpEntries as bs = .lt))) := by
  rw [cmpEntries, Ordering.then_eq_lt, Ordering.then_eq_lt, Ordering.then_eq_eq, cmp_eq_iff,
    cmp_eq_iff, and_assoc, and_or_left, or_assoc]

theorem cmpEntries_lt_trans {as : List (Value × Value)}
    (h : ∀ a ∈ as, (∀ b c, cmp a.1 b = .lt → cmp b c = .lt → cmp a.1 c = .lt) ∧
      ∀ b c, cmp a.2 b = .lt → cmp b c = .lt → cmp a.2 c = .lt) :
    ∀ bs cs, cmpEntries as bs = .lt → cmpEntries bs cs = .lt → cmpEntries as cs = .lt := by
  induction as with
  | nil =>
    intro bs cs hab hbc
    cases cs with
    | nil => cases bs <;> cases hbc
    | cons c cs => rfl
  | cons a as ih =>
    obtain ⟨⟨hk, hv⟩, has⟩ := List.forall_mem_cons.mp h
    intro bs cs hab hbc
    cases bs with
    | nil => cases hab
    | cons b bs => cases cs with
      | nil => cases hbc
      | cons c cs =>
        rw [cmpEntries_cons_lt] at hab hbc ⊢
        rcases hab with hab | ⟨hkk, hab⟩
        · rcases hbc with hbc | ⟨hkk', -⟩
          · exact .inl (hk _ _ hab hbc)
          · exact .inl (hkk' ▸ hab)
        · rcases hbc with hbc | ⟨hkk', hbc⟩
          · exact .inl (hkk ▸ hbc)
          · refine .inr ⟨hkk.trans hkk', ?_⟩
            rcases hab with hab | ⟨hvv, hab⟩
            · rcases hbc with hbc | ⟨hvv', -⟩
              · exact .inl (hv _ _ hab hbc)
              · exact .inl (hvv' ▸ hab)
            · rcases hbc with hbc | ⟨hvv', hbc⟩
              · exact .inl (hvv ▸ hbc)
              · exact .inr ⟨hvv.trans hvv', ih has bs cs hab hbc⟩

theorem cmp_lt_trans (a : Value) :
    ∀ b c, cmp a b = .lt → cmp b c = .lt → cmp a c = .lt := by
  induction a using Value.induction with
  | int i =>
    intro b c hab hbc
    cases b with
    | int _ => cases c with
      | int _ => exact @Std.TransCmp.lt_trans _ compare _ _ _ _ hab hbc
      | _ => exact hbc
    | _ => exact lt_trans_of_rank_ne (by simp [rank]) hab hbc
  | float x =>
    intro b c hab hbc
    cases b with
    | float _ => cases c with
      | float _ => exact @Std.TransCmp.lt_trans _ compare _ _ _ _ hab hbc
      | _ => exact hbc
    | _ => exact lt_trans_of_rank_ne (by simp [rank]) hab hbc
  | bool p =>
    intro b c hab hbc
    cases b with
    | bool _ => cases c with
      | bool _ => exact @Std.TransCmp.lt_trans _ compare _ _ _ _ hab hbc
      | _ => exact hbc
    | _ => exact lt_trans_of_rank_ne (by simp [rank]) hab hbc
  | str s =>
    intro b c hab hbc
    cases b with
    | str _ => cases c with
      | str _ => exact @Std.TransCmp.lt_trans _ compare _ _ _ _ hab hbc
      | _ => exact hbc
    | _ => exact lt_trans_of_rank_ne (by simp [rank]) hab hbc
  | list items ih =>
    intro b c hab hbc
    cases b with
    | list bs => cases c with
      | list cs => exact cmpItems_lt_trans ih bs cs hab hbc
      | _ => exact hbc
    | _ => exact lt_trans_of_rank_ne (by simp [rank]) hab hbc
  | tuple items ih =>
    intro b c hab hbc
    cases b with
    | tuple bs => cases c with
      | tuple cs => exact cmpItems_lt_trans ih bs cs hab hbc
      | _ => exact hbc
    | _ => exact lt_trans_of_rank_ne (by simp [rank]) hab hbc
  | set elements ih =>
    intro b c hab hbc
    cases b with
    | set bs => cases c with
      | set cs => exact cmpItems_lt_trans ih bs cs hab hbc
      | _ => exact hbc
    | _ => exact lt_trans_of_rank_ne (by simp [rank]) hab hbc
  | dict entries ih =>
    intro b c hab hbc
    cases b with
    | dict bs => cases c with
      | dict cs => exact cmpEntries_lt_trans ih bs cs hab hbc
      | _ => exact hbc
    | _ => exact lt_trans_of_rank_ne (by simp [rank]) hab hbc

/-! ## The order of values -/

instance : Std.LawfulEqCmp cmp where
  compare_self {a} := (cmp_eq_iff a a).mpr rfl
  eq_of_compare {a b} h := (cmp_eq_iff a b).mp h

instance : Std.TransCmp cmp where
  eq_swap {a b} := cmp_swap a b
  isLE_trans {a b c} hab hbc := by
    rcases Ordering.isLE_iff_eq_lt_or_eq_eq.mp hab with hab | hab
    · rcases Ordering.isLE_iff_eq_lt_or_eq_eq.mp hbc with hbc | hbc
      · rw [cmp_lt_trans a b c hab hbc]; rfl
      · rw [← (cmp_eq_iff b c).mp hbc, hab]; rfl
    · rw [(cmp_eq_iff a b).mp hab]; exact hbc

/-- `==` on values is equality. -/
instance : LawfulBEq Value where
  eq_of_beq {a b} h := by
    have hcmp : (cmp a b == .eq) = true := h
    exact (cmp_eq_iff a b).mp (eq_of_beq hcmp)
  rfl {a} := by
    show (cmp a a == .eq) = true
    rw [(cmp_eq_iff a a).mpr rfl]
    rfl

instance : DecidableEq Value := fun a b =>
  decidable_of_iff (cmp a b = .eq) (cmp_eq_iff a b)

end Value

/-! ## The order of signatures -/

namespace OutcomeClass

instance : Std.LawfulEqCmp cmp where
  compare_self {a} := by cases a <;> simp [cmp]
  eq_of_compare {a b} h := by cases a <;> cases b <;> simp_all [cmp, rank]

instance : Std.TransCmp cmp where
  eq_swap {a b} := by
    cases a with
    | raised x => cases b with
      | raised y => exact Std.OrientedOrd.eq_swap
      | _ => rfl
    | _ => cases b <;> rfl
  isLE_trans {a b c} hab hbc := by
    cases a <;> cases b <;> cases c <;>
      first | exact @Std.TransCmp.isLE_trans _ compare _ _ _ _ hab hbc | rfl | contradiction

end OutcomeClass

theorem transCmp_comap {α β : Type} (f : α → β) (cmp : β → β → Ordering) [Std.TransCmp cmp] :
    Std.TransCmp fun a b => cmp (f a) (f b) where
  eq_swap := Std.OrientedCmp.eq_swap
  isLE_trans := Std.TransCmp.isLE_trans

namespace Signature

instance : Std.LawfulEqCmp cmp where
  compare_self {a} := by simp [cmp]
  eq_of_compare {a b} h := by
    cases a
    cases b
    simpa [cmp, and_assoc] using h

instance : Std.TransCmp cmp :=
  haveI := transCmp_comap Signature.reference OutcomeClass.cmp
  haveI := transCmp_comap Signature.observed OutcomeClass.cmp
  inferInstanceAs (Std.TransCmp (compareLex
    (compareLex (compareOn Signature.candidate) fun a b => a.reference.cmp b.reference)
    fun a b => a.observed.cmp b.observed))

end Signature

end Divergence
