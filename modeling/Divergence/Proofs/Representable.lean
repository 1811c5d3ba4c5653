/-
# `Divergence.Proofs.Representable` — what is read fits into machine words

A value of a simple domain comes from an integer of a range, whose ends are read
as 64-bit integers, or from a literal.  Either way an integer has 64 bits, a
length is not negative either, and a double is finite: literals of other doubles
are refused, and no integer of 64 bits is rounded to infinity.
-/
import Divergence.Proofs.Repetition
import Divergence.Proofs.SpecLimit

namespace Divergence

open Divergence.Text

namespace SimpleDomain

variable {α : Type} [Scalar α]

theorem fitsInt64_iff {i : Int} : fitsInt64 i = true ↔ -2 ^ 63 ≤ i ∧ i < 2 ^ 63 := by
  rw [fitsInt64, Bool.and_eq_true, decide_eq_true_eq, decide_eq_true_eq]
  exact Iff.rfl

theorem fitsInt64_of_int64? {s : List Char} {i : Int} (h : int64? s = some i) :
    fitsInt64 i = true :=
  (Option.filter_eq_some_iff.mp h).2

/-- The ends of a range are 64-bit integers, and so is what lies between. -/
theorem fitsInt64_of_range {text : List Char} {lower upper i : Int}
    (h : bounds? text = some (lower, upper)) (hlower : lower ≤ i) (hupper : i ≤ upper) :
    fitsInt64 i = true := by
  unfold bounds? at h
  extract_lets domain at h
  split at h
  · obtain ⟨l, hl, hmap⟩ := Option.bind_eq_some_iff.mp h
    obtain ⟨u, hu, heq⟩ := Option.map_eq_some_iff.mp hmap
    cases heq
    obtain ⟨hmin, -⟩ := fitsInt64_iff.mp (fitsInt64_of_int64? hl)
    obtain ⟨-, hmax⟩ := fitsInt64_iff.mp (fitsInt64_of_int64? hu)
    exact fitsInt64_iff.mpr ⟨by omega, by omega⟩
  · cases h

theorem entryValue_eq_ok {entry : List Char} {a : α} :
    entryValue α entry = .ok a ↔ Scalar.ofLiteral? (trim entry) = some a := by
  unfold entryValue
  split
  · next v hv => rw [hv, Except.ok.injEq, Option.some.injEq]
  · next hnone => simp [hnone]

/-- What holds of the scalars of literals holds of every entry of a list. -/
theorem forall_mem_of_readList {P : α → Prop}
    (hliteral : ∀ {s : List Char} {a : α}, Scalar.ofLiteral? s = some a → P a)
    {domain : List Char} {values : List α} (h : readList α domain = .ok values) :
    ∀ a ∈ values, P a := by
  unfold readList at h
  split at h
  · cases h
  · extract_lets entries at h
    split at h
    · cases h
    · split at h
      · cases h
        exact fun a ha => absurd ha List.not_mem_nil
      · obtain ⟨all, hall, heq⟩ := bind_eq_ok.mp h
        cases heq
        intro a ha
        obtain ⟨entry, -, hentry⟩ :=
          exists_mem_of_forall₂ (mapM_eq_ok.mp hall) (mem_of_mem_distinctFrom ha)
        exact hliteral (entryValue_eq_ok.mp hentry)

/-- What holds of the scalars of 64-bit integers and of those of literals holds of every value
that is read. -/
theorem forall_mem_of_read {P : α → Prop}
    (hbound : ∀ {i : Int} {a : α}, fitsInt64 i = true → Scalar.ofBound? i = some a → P a)
    (hliteral : ∀ {s : List Char} {a : α}, Scalar.ofLiteral? s = some a → P a)
    {text : List Char} {values : List α} (h : read α text = .ok values) :
    ∀ a ∈ values, P a := by
  rcases read_cases h with ⟨-, hlist⟩ | ⟨lower, upper, hbounds, hrange⟩
  · exact forall_mem_of_readList hliteral hlist
  · intro a ha
    obtain ⟨n, hn, hvalue⟩ := exists_mem_of_forall₂ (rangeValues_eq_ok hrange) ha
    have hlt : n < (upper - lower + 1).toNat := List.mem_range.mp hn
    have hfits := fitsInt64_of_range hbounds (i := lower + Int.ofNat n)
    rw [Int.ofNat_eq_natCast] at hfits
    exact hbound (hfits (by omega) (by omega)) hvalue

theorem length?_lt {i : Int} {n : Nat} (hi : fitsInt64 i = true) (h : length? i = some n) :
    n < 2 ^ 63 := by
  obtain ⟨-, hupper⟩ := fitsInt64_iff.mp hi
  unfold length? at h
  split at h
  · cases h
    omega
  · cases h

end SimpleDomain

namespace DomainTree

open SimpleDomain

/-- Integers of 64 bits, finite doubles, and lengths that are integers of 64 bits. -/
def representable : DomainProperty where
  int values := ∀ i ∈ values, fitsInt64 i = true
  float values := ∀ x ∈ values, x.isFinite = true
  bool _ := True
  length lengths := ∀ n ∈ lengths, n < 2 ^ 63

theorem representable_ofRead : representable.OfRead where
  int h := by
    refine forall_mem_of_read (fun hi hbound => ?_) (fun hliteral => ?_) h
    · cases hbound
      exact hi
    · exact fitsInt64_of_int64? hliteral
  float h := by
    refine forall_mem_of_read (fun hi hbound => ?_) (fun hliteral => ?_) h
    · cases hbound
      obtain ⟨hlower, hupper⟩ := fitsInt64_iff.mp hi
      exact Binary64.isFinite_ofInt (by omega)
    · exact (Option.filter_eq_some_iff.mp hliteral).2
  bool _ := trivial
  length h := by
    refine forall_mem_of_read (fun hi hbound => length?_lt hi hbound) (fun hliteral => ?_) h
    obtain ⟨i, hi, hlength⟩ := Option.bind_eq_some_iff.mp hliteral
    exact length?_lt (fitsInt64_of_int64? hi) hlength

end DomainTree

namespace Spec

/-- What every simple domain that is read has, all domains of a tree that texts describe have. -/
theorem everywhere_of_describes {P : DomainTree.DomainProperty} (hP : P.OfRead)
    {p : ParameterTexts} {tree : DomainTree} (h : Describes p tree) (side : Side) :
    tree.Everywhere P side := by
  obtain ⟨shape, -, hread⟩ := bind_eq_ok.mp h
  obtain ⟨-, hexhaustive, hrandom⟩ := DomainTree.read_eq_ok.mp hread
  cases side with
  | exhaustive => exact DomainTree.everywhere_of_reads hP hexhaustive
  | random => exact DomainTree.everywhere_of_reads hP hrandom

theorem everywhere_of_read {P : DomainTree.DomainProperty} (hP : P.OfRead) {text : List Char}
    {spec : Spec} (h : read text = .ok spec) :
    ∀ t ∈ spec.parameters, ∀ side, t.Everywhere P side := by
  intro t ht side
  obtain ⟨hall, -⟩ := read_eq_ok h
  obtain ⟨p, -, hdescribes⟩ := exists_mem_of_forall₂ hall ht
  exact everywhere_of_describes hP hdescribes side

end Spec

end Divergence
