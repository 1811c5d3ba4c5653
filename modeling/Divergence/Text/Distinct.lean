/-
# `Divergence.Text.Distinct` — first appearances

Alphabets and comma lists keep each entry at its first place and drop the
repetitions.  The equality is a parameter: characters are compared as they
are, domain values the way their kind compares.
-/

namespace Divergence.Text

/-- The entries that are not the same as an earlier one, nor as one in `seen`. -/
def distinctFrom {α : Type} (same : α → α → Bool) (seen : List α) : List α → List α
  | [] => []
  | x :: xs =>
    if seen.any fun y => same y x then distinctFrom same seen xs
    else x :: distinctFrom same (x :: seen) xs

/-- The entries that are not the same as an earlier one. -/
def distinctBy {α : Type} (same : α → α → Bool) (xs : List α) : List α :=
  distinctFrom same [] xs

theorem mem_of_mem_distinctFrom {α : Type} {same : α → α → Bool} {seen xs : List α} {x : α}
    (h : x ∈ distinctFrom same seen xs) : x ∈ xs := by
  fun_induction distinctFrom same seen xs with
  | case1 => exact h
  | case2 seen y xs _ ih => exact List.mem_cons_of_mem y (ih h)
  | case3 seen y xs _ ih =>
    rcases List.mem_cons.mp h with rfl | hrest
    · exact List.mem_cons_self
    · exact List.mem_cons_of_mem y (ih hrest)

/-- Nothing is dropped where nothing is the same. -/
theorem distinctFrom_eq_self {α : Type} {same : α → α → Bool} {seen xs : List α}
    (hseen : ∀ x ∈ xs, ∀ y ∈ seen, same y x = false)
    (h : xs.Pairwise fun a b => same a b = false) : distinctFrom same seen xs = xs := by
  induction xs generalizing seen with
  | nil => rfl
  | cons x xs ih =>
    obtain ⟨hx, hxs⟩ := List.forall_mem_cons.mp hseen
    obtain ⟨hfirst, hlater⟩ := List.pairwise_cons.mp h
    have hnew : ¬ (seen.any fun y => same y x) = true := by
      rw [List.any_eq_true]
      rintro ⟨y, hy, hsame⟩
      rw [hx y hy] at hsame
      cases hsame
    rw [distinctFrom, if_neg hnew, ih ?_ hlater]
    intro y hy
    exact List.forall_mem_cons.mpr ⟨hfirst y hy, hxs y hy⟩

theorem distinctBy_eq_self {α : Type} {same : α → α → Bool} {xs : List α}
    (h : xs.Pairwise fun a b => same a b = false) : distinctBy same xs = xs :=
  distinctFrom_eq_self (fun _ _ _ hy => absurd hy List.not_mem_nil) h

/-- With an equality that is lawful, distinct entries are those of the standard library. -/
theorem eraseDupsBy_loop_eq {α : Type} [BEq α] [LawfulBEq α] (xs seen : List α) :
    List.eraseDupsBy.loop (· == ·) xs seen = seen.reverse ++ distinctFrom (· == ·) seen xs := by
  induction xs generalizing seen with
  | nil => simp [List.eraseDupsBy.loop, distinctFrom]
  | cons x xs ih =>
    have hany : seen.any (fun y => x == y) = seen.any (fun y => y == x) := by
      congr 1
      funext y
      exact BEq.comm
    rw [List.eraseDupsBy.loop, distinctFrom, ← hany]
    cases seen.any (fun y => x == y) with
    | true => simp [ih]
    | false => simp [ih]

theorem distinctBy_eq_eraseDups {α : Type} [BEq α] [LawfulBEq α] (xs : List α) :
    distinctBy (· == ·) xs = xs.eraseDups :=
  (eraseDupsBy_loop_eq xs []).symm

end Divergence.Text
