/-
# `Divergence.Proofs.ReaderErrors` — what readers of texts can find wrong

A type token has errors of types, a domain string has errors of domains, and
these stand directly in the field that the text came from.  In particular no
reader finds an expansion too large: that is found out only by counting, after
everything has been read.
-/
import Divergence.Proofs.Results
import Divergence.Shape.Reader

namespace Divergence

/-- The errors of type tokens. -/
def SpecError.OfType : SpecError → Prop
  | .unknownType _ | .malformedType _ _ | .unhashable _ _ => True
  | _ => False

/-- The errors of domain strings. -/
def SpecError.OfDomain : SpecError → Prop
  | .malformedDomain _ _ | .notAnInteger _ _ | .invertedRange _ _ | .rangeTooLarge _ _
  | .invalidValue _ _ => True
  | _ => False

/-- An error of a type token says nothing about where it was found. -/
theorem SpecError.OfType.root_eq {e : SpecError} (h : e.OfType) : e.root = e := by
  cases e with
  | inField | atParameter => exact h.elim
  | _ => rfl

/-- An error of a domain string says nothing about where it was found. -/
theorem SpecError.OfDomain.root_eq {e : SpecError} (h : e.OfDomain) : e.root = e := by
  cases e with
  | inField | atParameter => exact h.elim
  | _ => rfl

/-- Every error that a result can be has a property. -/
def AllErrors {α : Type} (P : SpecError → Prop) (x : Except SpecError α) : Prop :=
  ∀ e, x = .error e → P e

section AllErrors

variable {α β : Type} {P Q : SpecError → Prop} {x : Except SpecError α}

theorem allErrors_ok (a : α) : AllErrors P (.ok a) := by
  intro e h
  cases h

theorem allErrors_error {e : SpecError} (h : P e) :
    AllErrors P (.error e : Except SpecError α) := by
  intro e' he
  cases he
  exact h

theorem AllErrors.bind {f : α → Except SpecError β} (hx : AllErrors P x)
    (hf : ∀ a, x = .ok a → AllErrors P (f a)) : AllErrors P (x >>= f) := by
  intro e h
  rcases bind_eq_error.mp h with hxe | ⟨a, hxa, hfe⟩
  · exact hx e hxe
  · exact hf a hxa e hfe

theorem AllErrors.map {f : α → β} (hx : AllErrors P x) : AllErrors P (x.map f) := by
  intro e h
  exact hx e (map_eq_error.mp h)

theorem AllErrors.inField {field : Field} (hx : AllErrors P x)
    (hfield : ∀ cause, P cause → Q (.inField field cause)) :
    AllErrors Q (DomainTree.inField field x) := by
  intro e h
  obtain ⟨cause, hcause, rfl⟩ := DomainTree.inField_eq_error.mp h
  exact hfield cause (hx cause hcause)

theorem allErrors_mapM {f : β → Except SpecError α} (h : ∀ b, AllErrors P (f b))
    (bs : List β) : AllErrors P (bs.mapM f) := by
  induction bs with
  | nil => exact allErrors_ok []
  | cons b bs ih =>
    rw [List.mapM_cons]
    exact (h b).bind fun a _ => ih.bind fun as _ => allErrors_ok (a :: as)

end AllErrors

/-! ## Type tokens -/

namespace Shape

theorem readPrimitive_errors (token : List Char) :
    AllErrors SpecError.OfType (readPrimitive token) := by
  unfold readPrimitive
  split
  · exact allErrors_ok _
  · exact allErrors_ok _
  · exact allErrors_ok _
  · exact allErrors_error trivial

theorem body_errors (token : List Char) : AllErrors SpecError.OfType (body token) := by
  unfold body
  split
  · split
    · exact allErrors_error trivial
    · exact allErrors_ok _
  · exact allErrors_error trivial
  · exact allErrors_error trivial

theorem halves_errors (token inner : List Char) :
    AllErrors SpecError.OfType (halves token inner) := by
  unfold halves
  split
  · split
    · exact allErrors_error trivial
    · exact allErrors_ok _
  · exact allErrors_error trivial

theorem requireHashable_errors (container : HashedContainer) (shape : Shape) :
    AllErrors SpecError.OfType (requireHashable container shape) := by
  unfold requireHashable
  split
  · exact allErrors_ok _
  · exact allErrors_error trivial

theorem readTrimmed_errors (token : List Char) :
    AllErrors SpecError.OfType (readTrimmed token) := by
  fun_induction readTrimmed token with
  | case1 token => exact readPrimitive_errors token
  | case2 => exact allErrors_ok _
  | case3 token _ _ _ e he | case5 token _ _ _ e he | case7 token _ _ _ e he
  | case9 token _ _ _ e he =>
    exact allErrors_error (body_errors token e he)
  | case4 _ _ _ _ _ _ ih | case6 _ _ _ _ _ _ ih => exact ih.map
  | case8 _ _ _ _ _ _ ih =>
    exact ih.bind fun element _ =>
      (requireHashable_errors .set element).bind fun _ _ => allErrors_ok _
  | case10 token _ _ _ inner _ e he =>
    exact allErrors_error (halves_errors token inner e he)
  | case11 _ _ _ _ _ _ _ _ _ ihk ihv =>
    refine ihk.bind fun key _ => ?_
    exact (requireHashable_errors .dict key).bind fun _ _ => ihv.bind fun _ _ => allErrors_ok _
  | case12 =>
    split
    · exact allErrors_error trivial
    · exact allErrors_error trivial

theorem read_errors (text : List Char) : AllErrors SpecError.OfType (read text) :=
  readTrimmed_errors _

end Shape

/-! ## Domain strings -/

namespace SimpleDomain

theorem readBound_errors (domain : List Char) (bound : Bound) (text : List Char) :
    AllErrors SpecError.OfDomain (readBound domain bound text) := by
  unfold readBound
  split
  · exact allErrors_ok _
  · exact allErrors_error trivial

variable (α : Type) [Scalar α]

theorem boundValue_errors (i : Int) : AllErrors SpecError.OfDomain (boundValue α i) := by
  unfold boundValue
  split
  · exact allErrors_ok _
  · exact allErrors_error trivial

theorem entryValue_errors (entry : List Char) :
    AllErrors SpecError.OfDomain (entryValue α entry) := by
  unfold entryValue
  split
  · exact allErrors_ok _
  · exact allErrors_error trivial

theorem rangeValues_errors (lower upper : Int) :
    AllErrors SpecError.OfDomain (rangeValues α lower upper) := by
  unfold rangeValues
  split
  · exact allErrors_error trivial
  · split
    · exact allErrors_error trivial
    · exact allErrors_mapM (fun n => boundValue_errors α _) _

theorem readRange_errors (domain : List Char) :
    AllErrors SpecError.OfDomain (readRange α domain) :=
  (readBound_errors domain .lower _).bind fun lower _ =>
    (readBound_errors domain .upper _).bind fun upper _ => rangeValues_errors α lower upper

theorem readList_errors (domain : List Char) :
    AllErrors SpecError.OfDomain (readList α domain) := by
  unfold readList
  split
  · exact allErrors_error trivial
  · extract_lets entries
    split
    · exact allErrors_error trivial
    · split
      · exact allErrors_ok _
      · exact (allErrors_mapM (entryValue_errors α) _).bind fun values _ => allErrors_ok _

theorem read_errors (text : List Char) : AllErrors SpecError.OfDomain (read α text) := by
  unfold read readTrimmed
  split
  · exact allErrors_error trivial
  · split
    · exact readRange_errors α _
    · exact readList_errors α _

end SimpleDomain

namespace DomainTree

/-- An error of a domain string, found in the field of one of the two strings. -/
def InDomain (e : SpecError) : Prop :=
  ∃ field cause, (field = .exhaustive ∨ field = .random) ∧ SpecError.OfDomain cause ∧
    e = .inField field cause

theorem sides_errors {α : Type} {reading : List Char → Except SpecError α}
    (h : ∀ text, AllErrors SpecError.OfDomain (reading text)) (exhaustive random : List Char) :
    AllErrors InDomain (sides reading exhaustive random) := by
  have hx : AllErrors InDomain (inField .exhaustive (reading exhaustive)) :=
    (h exhaustive).inField fun cause hc => ⟨.exhaustive, cause, .inl rfl, hc, rfl⟩
  have hr : AllErrors InDomain (inField .random (reading random)) :=
    (h random).inField fun cause hc => ⟨.random, cause, .inr rfl, hc, rfl⟩
  exact hx.bind fun x _ => hr.bind fun r _ => allErrors_ok (x, r)

theorem readDomains_errors (α : Type) [Scalar α] (exhaustive random : List Char) :
    AllErrors InDomain (readDomains α exhaustive random) :=
  (sides_errors (SimpleDomain.read_errors α) exhaustive random).bind fun _ _ => allErrors_ok _

theorem splitContainer_errors (text : List Char) :
    AllErrors SpecError.OfDomain (splitContainer text) := by
  unfold splitContainer
  extract_lets domain
  split
  · exact allErrors_error trivial
  · exact allErrors_error trivial
  · split
    · exact allErrors_error trivial
    · split
      · exact allErrors_error trivial
      · exact allErrors_ok _

theorem splitEntry_errors (inner : List Char) :
    AllErrors SpecError.OfDomain (splitEntry inner) := by
  unfold splitEntry
  split
  · split
    · exact allErrors_error trivial
    · exact allErrors_ok _
  · exact allErrors_error trivial

theorem read_errors (shape : Shape) (exhaustive random : List Char) :
    AllErrors InDomain (read shape exhaustive random) := by
  induction shape generalizing exhaustive random with
  | int | float | bool | str => exact (readDomains_errors _ _ _).map
  | list element ih | tuple element ih | set element ih =>
    exact (sides_errors splitContainer_errors _ _).bind fun g _ =>
      (ih _ _).bind fun elements _ =>
        (readDomains_errors Nat _ _).bind fun lengths _ => allErrors_ok _
  | dict key value ihk ihv =>
    exact (sides_errors splitContainer_errors _ _).bind fun g _ =>
      (sides_errors splitEntry_errors _ _).bind fun entry _ =>
        (ihk _ _).bind fun keys _ => (ihv _ _).bind fun values _ =>
          (readDomains_errors Nat _ _).bind fun lengths _ => allErrors_ok _

end DomainTree

end Divergence
