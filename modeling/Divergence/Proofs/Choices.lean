/-
# `Divergence.Proofs.Choices` — what a draw can give

A draw asks its chooser for indexes, and of a chooser nothing is known but that its
indexes are in range.  What a draw can give is what it gives with some chooser in some
state.  `Exact` says what that is: whatever the chooser, a result is one of those
named, and there is a failure only if there can be one; and each of these happens with
some chooser.

That chooser takes its indexes from a list (`script`).  The steps of a draw share one
list, so of a step it has to be known that it gives its result and leaves whatever
list is to be left to the steps after it (`Scripted`).
-/
import Divergence.Sampling.Draw

namespace Divergence.Sampling

/-- The chooser that takes its indexes from a list. -/
def script : Chooser (List Nat) where
  index
    | _, [] => (0, [])
    | n, i :: rest => (Fin.ofNat (n + 1) i, rest)

/-- Whatever is to be left over, some list of indexes makes the draw give the result. -/
def Scripted {α : Type} (d : Draw (List Nat) α) (result : Option α) : Prop :=
  ∀ rest, ∃ indexes, d indexes = (result, rest)

/-- A draw from whatever chooser there is. -/
abbrev Sampler (α : Type) : Type 1 :=
  {σ : Type} → Chooser σ → Draw σ α

/-- With some chooser in some state, the draw has the result. -/
def CanGive {α : Type} (d : Sampler α) (result : Option α) : Prop :=
  ∃ (σ : Type) (c : Chooser σ) (s : σ), (d c s).1 = result

/-- The draw can give the values of `P` and no others, and can fail just if `F`. -/
structure Exact {α : Type} (d : Sampler α) (P : α → Prop) (F : Prop) : Prop where
  sound : ∀ {σ : Type} (c : Chooser σ) (s : σ) (a : α), (d c s).1 = some a → P a
  sound_none : ∀ {σ : Type} (c : Chooser σ) (s : σ), (d c s).1 = none → F
  complete : ∀ a, P a → Scripted (d script) (some a)
  complete_none : F → Scripted (d script) none

/-! ## Steps -/

section Scripted

variable {α β : Type} {d : Draw (List Nat) α} {f : α → Draw (List Nat) β}

theorem Scripted.bind {a : α} {result : Option β} (hd : Scripted d (some a))
    (hf : Scripted (f a) result) : Scripted (d >>= f) result := by
  intro rest
  obtain ⟨middle, hmiddle⟩ := hf rest
  obtain ⟨indexes, hindexes⟩ := hd middle
  refine ⟨indexes, ?_⟩
  simp only [Bind.bind, hindexes, hmiddle]

theorem Scripted.bind_none (hd : Scripted d none) : Scripted (d >>= f) none := by
  intro rest
  obtain ⟨indexes, hindexes⟩ := hd rest
  refine ⟨indexes, ?_⟩
  simp only [Bind.bind, hindexes]

end Scripted

section Exact

variable {α β : Type} {d : Sampler α} {P Q : α → Prop} {F G : Prop}

theorem Exact.canGive (h : Exact d P F) (a : α) : CanGive d (some a) ↔ P a := by
  constructor
  · rintro ⟨σ, c, s, hs⟩
    exact h.sound c s a hs
  · intro ha
    obtain ⟨indexes, hindexes⟩ := h.complete a ha []
    exact ⟨List Nat, script, indexes, congrArg Prod.fst hindexes⟩

theorem Exact.canGive_none (h : Exact d P F) : CanGive d none ↔ F := by
  constructor
  · rintro ⟨σ, c, s, hs⟩
    exact h.sound_none c s hs
  · intro hF
    obtain ⟨indexes, hindexes⟩ := h.complete_none hF []
    exact ⟨List Nat, script, indexes, congrArg Prod.fst hindexes⟩

/-- With every chooser there is a result, unless the draw can fail. -/
theorem Exact.exists_result (h : Exact d P F) (hF : ¬ F) {σ : Type} (c : Chooser σ) (s : σ) :
    ∃ a, (d c s).1 = some a ∧ P a := by
  cases hresult : (d c s).1 with
  | none => exact absurd (h.sound_none c s hresult) hF
  | some a => exact ⟨a, rfl, h.sound c s a hresult⟩

theorem Exact.of_iff (h : Exact d P F) (hP : ∀ a, P a ↔ Q a) (hF : F ↔ G) : Exact d Q G := by
  obtain rfl : P = Q := funext fun a => propext (hP a)
  obtain rfl : F = G := propext hF
  exact h

theorem exact_pure (a : α) : Exact (fun _ => pure a) (· = a) False where
  sound := by
    intro σ c s b h
    exact (Option.some.inj h).symm
  sound_none := by
    intro σ c s h
    cases h
  complete := by
    rintro b rfl rest
    exact ⟨rest, rfl⟩
  complete_none := False.elim

theorem exact_choose (entries : List α) :
    Exact (fun c => c.choose entries) (· ∈ entries) (entries = []) := by
  cases entries with
  | nil =>
    refine ⟨?_, fun _ _ _ => rfl, fun a ha => absurd ha List.not_mem_nil, fun _ rest => ⟨rest, rfl⟩⟩
    intro σ c s a h
    cases h
  | cons x xs =>
    refine ⟨?_, ?_, ?_, fun h => absurd h (List.cons_ne_nil x xs)⟩
    · intro σ c s a h
      cases h
      exact List.get_mem _ _
    · intro σ c s h
      cases h
    · intro a ha rest
      obtain ⟨i, rfl⟩ := List.mem_iff_get.mp ha
      refine ⟨i.val :: rest, ?_⟩
      simp only [Chooser.choose, script, Fin.ofNat_val_eq_self]

/-- A draw whose later steps may go by what was drawn before. -/
theorem Exact.bind {f : {σ : Type} → Chooser σ → α → Draw σ β} {Q : α → β → Prop} {G : α → Prop}
    (hd : Exact d P F) (hf : ∀ a, P a → Exact (fun c => f c a) (Q a) (G a)) :
    Exact (fun c => d c >>= f c) (fun b => ∃ a, P a ∧ Q a b) (F ∨ ∃ a, P a ∧ G a) where
  sound := by
    intro σ c s b h
    simp only [Bind.bind] at h
    split at h
    · next a s' hs =>
      have ha : P a := hd.sound c s a (congrArg Prod.fst hs)
      exact ⟨a, ha, (hf a ha).sound c s' b h⟩
    · cases h
  sound_none := by
    intro σ c s h
    simp only [Bind.bind] at h
    split at h
    · next a s' hs =>
      have ha : P a := hd.sound c s a (congrArg Prod.fst hs)
      exact .inr ⟨a, ha, (hf a ha).sound_none c s' h⟩
    · next s' hs => exact .inl (hd.sound_none c s (congrArg Prod.fst hs))
  complete := by
    rintro b ⟨a, ha, hb⟩
    exact (hd.complete a ha).bind ((hf a ha).complete b hb)
  complete_none := by
    rintro (hF | ⟨a, ha, hG⟩)
    · exact (hd.complete_none hF).bind_none
    · exact (hd.complete a ha).bind ((hf a ha).complete_none hG)

theorem Exact.map {f : α → β} (hd : Exact d P F) :
    Exact (fun c => do return f (← d c)) (fun b => ∃ a, P a ∧ f a = b) F :=
  (hd.bind fun a _ => exact_pure (f a)).of_iff
    (fun b => exists_congr fun a => and_congr_right fun _ => eq_comm) (by simp)

/-- Two draws, one after the other.  If the first cannot fail, it gives something, and then the
second can. -/
theorem Exact.pair {d' : Sampler β} {Q : β → Prop} (hd : Exact d P F) (hd' : Exact d' Q G) :
    Exact (fun c => do let a ← d c; let b ← d' c; return (a, b)) (fun e => P e.1 ∧ Q e.2)
      (F ∨ G) := by
  refine (hd.bind fun a _ => hd'.bind fun b _ => exact_pure (a, b)).of_iff (fun e => ?_) ?_
  · constructor
    · rintro ⟨a, ha, b, hb, rfl⟩
      exact ⟨ha, hb⟩
    · rintro ⟨ha, hb⟩
      exact ⟨e.1, ha, e.2, hb, rfl⟩
  · constructor
    · rintro (hF | ⟨a, -, hG | ⟨b, -, hfalse⟩⟩)
      · exact .inl hF
      · exact .inr hG
      · exact hfalse.elim
    · rintro (hF | hG)
      · exact .inl hF
      · by_cases hF : F
        · exact .inl hF
        · obtain ⟨a, -, ha⟩ := hd.exists_result hF script []
          exact .inr ⟨a, ha, .inl hG⟩

/-- A number of draws, the first failure of which ends the drawing. -/
theorem Exact.times (hd : Exact d P F) (n : Nat) :
    Exact (fun c => (d c).times n) (fun as => as.length = n ∧ ∀ a ∈ as, P a) (0 < n ∧ F) := by
  induction n with
  | zero =>
    refine (exact_pure []).of_iff (fun as => ?_) (by simp)
    constructor
    · rintro rfl
      exact ⟨rfl, fun _ ha => absurd ha List.not_mem_nil⟩
    · rintro ⟨hlength, -⟩
      exact List.length_eq_zero_iff.mp hlength
  | succ n ih =>
    refine (hd.bind fun a _ => ih.bind fun as _ => exact_pure (a :: as)).of_iff (fun as => ?_) ?_
    · constructor
      · rintro ⟨a, ha, rest, ⟨hlength, hrest⟩, rfl⟩
        exact ⟨congrArg Nat.succ hlength, List.forall_mem_cons.mpr ⟨ha, hrest⟩⟩
      · rintro ⟨hlength, has⟩
        obtain ⟨a, rest, rfl⟩ := List.exists_cons_of_length_eq_add_one hlength
        obtain ⟨ha, hrest⟩ := List.forall_mem_cons.mp has
        exact ⟨a, ha, rest, ⟨Nat.succ.inj hlength, hrest⟩, rfl⟩
    · constructor
      · rintro (hF | ⟨a, -, ⟨-, hF⟩ | ⟨rest, -, hfalse⟩⟩)
        · exact ⟨Nat.succ_pos n, hF⟩
        · exact ⟨Nat.succ_pos n, hF⟩
        · exact hfalse.elim
      · rintro ⟨-, hF⟩
        exact .inl hF

/-- A length is drawn first, and then as many entries. -/
theorem Exact.sequence (hd : Exact d P F) (lengths : List Nat) (f : List α → β) :
    Exact (fun c => do let n ← c.choose lengths; let as ← (d c).times n; return f as)
      (fun b => ∃ as : List α, (as.length ∈ lengths ∧ ∀ a ∈ as, P a) ∧ f as = b)
      (lengths = [] ∨ (∃ n ∈ lengths, 0 < n) ∧ F) := by
  refine ((exact_choose lengths).bind fun n _ => (hd.times n).map).of_iff (fun b => ?_) ?_
  · constructor
    · rintro ⟨n, hn, as, ⟨rfl, has⟩, hb⟩
      exact ⟨as, ⟨hn, has⟩, hb⟩
    · rintro ⟨as, ⟨hn, has⟩, hb⟩
      exact ⟨as.length, hn, as, ⟨rfl, has⟩, hb⟩
  · refine or_congr_right ⟨?_, ?_⟩
    · rintro ⟨n, hn, hpos, hF⟩
      exact ⟨⟨n, hn, hpos⟩, hF⟩
    · rintro ⟨⟨n, hn, hpos⟩, hF⟩
      exact ⟨n, hn, hpos, hF⟩

end Exact

end Divergence.Sampling
