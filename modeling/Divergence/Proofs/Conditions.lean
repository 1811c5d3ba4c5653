/-
# `Divergence.Proofs.Conditions` — checks that go through conditions in order

A check that is made of several steps decides several conditions, one after the
other: it succeeds if all of them hold, and otherwise gives an error for the first
that does not (`Checks`).  Steps are put together by putting their conditions one
after the other (`Checks.bind`), whatever the later steps take over from the
earlier ones.
-/
import Divergence.Proofs.Results

namespace Divergence

/-- Something that has to hold, and the errors that say that it does not. -/
structure Condition where
  holds : Prop
  fault : SpecError → Prop

/-- A condition that is always reported by the same error. -/
def Condition.reportedBy (e : SpecError) (holds : Prop) : Condition :=
  ⟨holds, fun e' => e' = e⟩

/-- The error is one for the first condition that does not hold. -/
def FirstViolated (conditions : List Condition) (e : SpecError) : Prop :=
  ∃ before c after, conditions = before ++ c :: after ∧
    (∀ b ∈ before, b.holds) ∧ ¬ c.holds ∧ c.fault e

section FirstViolated

variable {c : Condition} {cs ds : List Condition} {e : SpecError}

theorem not_firstViolated_nil : ¬ FirstViolated [] e := by
  rintro ⟨before, c, after, heq, -⟩
  exact List.append_ne_nil_of_right_ne_nil before (List.cons_ne_nil c after) heq.symm

theorem firstViolated_cons :
    FirstViolated (c :: cs) e ↔ ¬ c.holds ∧ c.fault e ∨ c.holds ∧ FirstViolated cs e := by
  constructor
  · rintro ⟨before, d, after, heq, hbefore, hd⟩
    cases before with
    | nil =>
      cases heq
      exact .inl hd
    | cons b before =>
      cases heq
      obtain ⟨hb, hbefore⟩ := List.forall_mem_cons.mp hbefore
      exact .inr ⟨hb, before, d, after, rfl, hbefore, hd⟩
  · rintro (hc | ⟨hc, before, d, after, rfl, hbefore, hd⟩)
    · exact ⟨[], c, cs, rfl, fun _ hb => absurd hb List.not_mem_nil, hc⟩
    · exact ⟨c :: before, d, after, rfl, List.forall_mem_cons.mpr ⟨hc, hbefore⟩, hd⟩

theorem firstViolated_append :
    FirstViolated (cs ++ ds) e ↔
      FirstViolated cs e ∨ (∀ c ∈ cs, c.holds) ∧ FirstViolated ds e := by
  induction cs with
  | nil => simp [not_firstViolated_nil]
  | cons c cs ih =>
    rw [List.cons_append, firstViolated_cons, firstViolated_cons, ih, List.forall_mem_cons]
    tauto

theorem FirstViolated.exists_getElem? (h : FirstViolated cs e) :
    ∃ (i : Nat) (c : Condition), cs[i]? = some c ∧ c.fault e ∧
      ∀ j < i, ∀ d : Condition, cs[j]? = some d → d.holds := by
  obtain ⟨before, c, after, rfl, hbefore, -, hfault⟩ := h
  refine ⟨before.length, c, ?_, hfault, fun j hj d hd => ?_⟩
  · rw [List.getElem?_append_right (Nat.le_refl _), Nat.sub_self, List.getElem?_cons_zero]
  · rw [List.getElem?_append_left hj] at hd
    exact hbefore d (List.mem_of_getElem? hd)

theorem FirstViolated.exists_mem (h : FirstViolated cs e) : ∃ c ∈ cs, c.fault e := by
  obtain ⟨before, c, after, rfl, -, -, hfault⟩ := h
  exact ⟨c, List.mem_append_right before List.mem_cons_self, hfault⟩

end FirstViolated

/-- The result is a success if all conditions hold, and otherwise an error for the first that
does not. -/
structure Checks {α : Type} (conditions : List Condition) (x : Except SpecError α) : Prop where
  ok : (∃ a, x = .ok a) ↔ ∀ c ∈ conditions, c.holds
  error : ∀ e, x = .error e ↔ FirstViolated conditions e

section Checks

variable {α β : Type} {cs ds : List Condition} {x : Except SpecError α}

theorem checks_nil (a : α) : Checks [] (.ok a) where
  ok := by simp
  error := by simp [not_firstViolated_nil]

/-- A check of one condition. -/
theorem checks_singleton {c : Condition} (hok : (∃ a, x = .ok a) ↔ c.holds)
    (herror : ∀ e, x = .error e ↔ c.fault e) : Checks [c] x where
  ok := by rw [hok, List.forall_mem_singleton]
  error := by
    intro e
    rw [firstViolated_cons, or_iff_left fun h => not_firstViolated_nil h.2, ← herror, ← hok]
    refine (and_iff_right_of_imp ?_).symm
    rintro rfl ⟨a, ha⟩
    cases ha

theorem Checks.cons {c : Condition} (hc : c.holds) (hx : Checks cs x) : Checks (c :: cs) x where
  ok := by rw [hx.ok, List.forall_mem_cons, and_iff_right hc]
  error := by
    intro e
    rw [hx.error, firstViolated_cons, and_iff_right hc, or_iff_right fun h => h.1 hc]

/-- The first condition does not hold, and the others do not matter. -/
theorem checks_error {c : Condition} {e : SpecError} (hc : ¬ c.holds)
    (hfault : ∀ e', c.fault e' ↔ e' = e) : Checks (c :: cs) (.error e : Except SpecError α) where
  ok := by simp [hc]
  error := by
    intro e'
    rw [firstViolated_cons, or_iff_left fun h => hc h.1, and_iff_right hc, hfault,
      Except.error.injEq, eq_comm]

theorem checks_reportedBy {e : SpecError} {p : Prop} (hok : p → ∃ a, x = .ok a)
    (herror : ¬ p → x = .error e) : Checks [.reportedBy e p] x := by
  by_cases hp : p
  · obtain ⟨a, rfl⟩ := hok hp
    exact (checks_nil a).cons hp
  · rw [herror hp]
    exact checks_error hp fun _ => Iff.rfl

/-- One check after another goes through the conditions of both. -/
theorem Checks.bind {f : α → Except SpecError β} (hx : Checks cs x)
    (hf : ∀ a, x = .ok a → Checks ds (f a)) : Checks (cs ++ ds) (x >>= f) where
  ok := by
    rw [List.forall_mem_append, ← hx.ok]
    constructor
    · rintro ⟨b, hb⟩
      obtain ⟨a, ha, hfa⟩ := bind_eq_ok.mp hb
      exact ⟨⟨a, ha⟩, (hf a ha).ok.mp ⟨b, hfa⟩⟩
    · rintro ⟨⟨a, ha⟩, hds⟩
      obtain ⟨b, hb⟩ := (hf a ha).ok.mpr hds
      exact ⟨b, bind_eq_ok.mpr ⟨a, ha, hb⟩⟩
  error := by
    intro e
    rw [bind_eq_error, firstViolated_append, ← hx.error e, ← hx.ok]
    refine or_congr_right ⟨?_, ?_⟩
    · rintro ⟨a, ha, hfa⟩
      exact ⟨⟨a, ha⟩, ((hf a ha).error e).mp hfa⟩
    · rintro ⟨⟨a, ha⟩, hds⟩
      exact ⟨a, ha, ((hf a ha).error e).mpr hds⟩

theorem Checks.map {f : α → β} (hx : Checks cs x) : Checks cs (x.map f) where
  ok := by
    rw [← hx.ok]
    cases x <;> simp [Except.map]
  error := by
    intro e
    rw [map_eq_error, hx.error]

end Checks

end Divergence
