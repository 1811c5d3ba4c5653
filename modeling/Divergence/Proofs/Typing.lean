/-
# `Divergence.Proofs.Typing` — generated inputs have the types of their parameters

The functions under test get a value as a literal, and that has to be one that can be
evaluated.  Doubles must be finite, because others have no literal.  Set elements and
keys must be hashable, and so must not have a list, a set or a dictionary in them.

Doubles are looked at when a domain is read, and hashability when a type token is; nothing
is looked at again after that.  What carries both to the last leaf of a value is that the
tree has the shape of its token, and a value the shape of its tree (`HasShape`).
-/
import Divergence.Proofs.ArgumentTexts
import Divergence.Proofs.Ingredients

namespace Divergence

theorem forall₂_comp {α β γ : Type} {R : α → β → Prop} {S : β → γ → Prop} {T : α → γ → Prop}
    (h : ∀ a b c, R a b → S b c → T a c) {as : List α} {bs : List β} {cs : List γ}
    (hR : List.Forall₂ R as bs) (hS : List.Forall₂ S bs cs) : List.Forall₂ T as cs := by
  induction hR generalizing cs with
  | nil =>
    cases hS
    exact .nil
  | cons hab _ ih =>
    cases hS with
    | cons hbc hrest => exact .cons (h _ _ _ hab hbc) (ih hrest)

/-! ## Type tokens -/

namespace Shape

theorem requireHashable_eq_ok {container : HashedContainer} {shape result : Shape} :
    requireHashable container shape = .ok result ↔ result = shape ∧ shape.hashable = true := by
  unfold requireHashable
  split
  · next h => simp [h, eq_comm]
  · next h => simp [h]

theorem hashed_of_readPrimitive {token : List Char} {shape : Shape}
    (h : readPrimitive token = .ok shape) : shape.Hashed := by
  unfold readPrimitive at h
  split at h
  · cases h
    trivial
  · cases h
    trivial
  · cases h
    trivial
  · cases h

/-- Of a type that is read, set elements and keys are hashable all through it. -/
theorem hashed_of_readTrimmed (token : List Char) :
    ∀ shape, readTrimmed token = .ok shape → shape.Hashed := by
  fun_induction readTrimmed token with
  | case1 token =>
    intro shape h
    exact hashed_of_readPrimitive h
  | case2 =>
    intro shape h
    cases h
    trivial
  | case3 | case5 | case7 | case9 | case10 | case12 =>
    intro shape h
    cases h
  | case4 _ _ _ _ _ _ ih | case6 _ _ _ _ _ _ ih =>
    intro shape h
    obtain ⟨element, helement, rfl⟩ := map_eq_ok.mp h
    exact ih element helement
  | case8 _ _ _ _ _ _ ih =>
    intro shape h
    obtain ⟨element, helement, hcheck⟩ := bind_eq_ok.mp h
    obtain ⟨_, hrequire, heq⟩ := bind_eq_ok.mp hcheck
    obtain ⟨rfl, hhashable⟩ := requireHashable_eq_ok.mp hrequire
    cases heq
    exact ⟨ih _ helement, hhashable⟩
  | case11 _ _ _ _ _ _ _ _ _ ihk ihv =>
    intro shape h
    obtain ⟨key, hkey, hcheck⟩ := bind_eq_ok.mp h
    obtain ⟨_, hrequire, hrest⟩ := bind_eq_ok.mp hcheck
    obtain ⟨value, hvalue, heq⟩ := bind_eq_ok.mp hrest
    obtain ⟨rfl, hhashable⟩ := requireHashable_eq_ok.mp hrequire
    cases heq
    exact ⟨ihk _ hkey, ihv value hvalue, hhashable⟩

theorem hashed_of_read {text : List Char} {shape : Shape} (h : read text = .ok shape) :
    shape.Hashed :=
  hashed_of_readTrimmed _ shape h

end Shape

/-! ## Values of a shape -/

namespace Value

/-- The value is built as the type says, its strings from the characters that the type lists. -/
inductive HasShape : Value → Shape → Prop
  | int (i : Int) : HasShape (.int i) .int
  | float (x : Binary64) : HasShape (.float x) .float
  | bool (b : Bool) : HasShape (.bool b) .bool
  | str {alphabet : List Char} {s : String} :
      (∀ c ∈ s.toList, c ∈ alphabet) → HasShape (.str s) (.str alphabet)
  | list {element : Shape} {items : List Value} :
      (∀ x ∈ items, HasShape x element) → HasShape (.list items) (.list element)
  | tuple {element : Shape} {items : List Value} :
      (∀ x ∈ items, HasShape x element) → HasShape (.tuple items) (.tuple element)
  | set {element : Shape} {elements : List Value} :
      (∀ x ∈ elements, HasShape x element) → HasShape (.set elements) (.set element)
  | dict {key value : Shape} {entries : List (Value × Value)} :
      (∀ e ∈ entries, HasShape e.1 key) → (∀ e ∈ entries, HasShape e.2 value) →
      HasShape (.dict entries) (.dict key value)

/-- Lists, sets and dictionaries, which cannot be hashed because they can be changed. -/
def isMutable : Value → Bool
  | .list _ | .set _ | .dict _ => true
  | .int _ | .float _ | .bool _ | .str _ | .tuple _ => false

/-- Nothing in the value is a list, a set or a dictionary, at any depth. -/
def Immutable (v : Value) : Prop :=
  ∀ w : Value, w.OccursIn v → w.isMutable = false

/-- The literal of the value can be evaluated. -/
structure Evaluable (v : Value) : Prop where
  floats : v.FloatsFinite
  elements : ∀ elements, (Value.set elements).OccursIn v → ∀ x ∈ elements, x.Immutable
  keys : ∀ entries, (Value.dict entries).OccursIn v → ∀ e ∈ entries, e.1.Immutable

variable {v w : Value} {shape : Shape}

theorem HasShape.immutable (h : v.HasShape shape) (hhashable : shape.hashable = true) :
    v.Immutable := by
  intro w hw
  induction hw generalizing shape with
  | here =>
    cases h with
    | int | float | bool | str | tuple => rfl
    | list | set | dict => cases hhashable
  | tuple hx _ ih =>
    cases h with
    | tuple hitems => exact ih (hitems _ hx) hhashable
  | list | set | key | value =>
    cases h
    cases hhashable

/-- What stands in a value of a shape has a shape of its own, whose set elements and keys are
hashable if those of the whole are. -/
theorem HasShape.exists_of_occursIn (h : v.HasShape shape) (hhashed : shape.Hashed)
    (hw : w.OccursIn v) : ∃ part : Shape, part.Hashed ∧ w.HasShape part := by
  induction hw generalizing shape with
  | here => exact ⟨shape, hhashed, h⟩
  | list hx _ ih =>
    cases h with
    | list hitems => exact ih (hitems _ hx) hhashed
  | tuple hx _ ih =>
    cases h with
    | tuple hitems => exact ih (hitems _ hx) hhashed
  | set hx _ ih =>
    cases h with
    | set helements => exact ih (helements _ hx) hhashed.1
  | key he _ ih =>
    cases h with
    | dict hkeys _ => exact ih (hkeys _ he) hhashed.1
  | value he _ ih =>
    cases h with
    | dict _ hvalues => exact ih (hvalues _ he) hhashed.2.1

theorem HasShape.immutable_elements {elements : List Value} (h : v.HasShape shape)
    (hhashed : shape.Hashed) (hset : (Value.set elements).OccursIn v) :
    ∀ x ∈ elements, x.Immutable := by
  intro x hx
  obtain ⟨part, hpart, hshape⟩ := h.exists_of_occursIn hhashed hset
  cases hshape with
  | set helements => exact (helements x hx).immutable hpart.2

theorem HasShape.immutable_keys {entries : List (Value × Value)} (h : v.HasShape shape)
    (hhashed : shape.Hashed) (hdict : (Value.dict entries).OccursIn v) :
    ∀ e ∈ entries, e.1.Immutable := by
  intro e he
  obtain ⟨part, hpart, hshape⟩ := h.exists_of_occursIn hhashed hdict
  cases hshape with
  | dict hkeys _ => exact (hkeys e he).immutable hpart.2.2

end Value

/-! ## Values of a tree -/

namespace DomainTree

variable {side : Side} {t : DomainTree} {v : Value}

theorem Allows.hasShape (h : t.Allows side v) : v.HasShape t.shape := by
  induction h with
  | int => exact .int _
  | float => exact .float _
  | bool => exact .bool _
  | str hchars => exact .str hchars
  | list _ ih => exact .list ih
  | tuple _ ih => exact .tuple ih
  | set _ _ ih => exact .set ih
  | dict _ _ _ ihk ihv => exact .dict ihk ihv

theorem Allows.evaluable (h : t.Allows side v) (hhashed : t.shape.Hashed)
    (hfinite : t.Everywhere finiteFloats side) : v.Evaluable where
  floats := h.floatsFinite hfinite
  elements _ := h.hasShape.immutable_elements hhashed
  keys _ := h.hasShape.immutable_keys hhashed

end DomainTree

/-! ## Inputs -/

namespace Spec

/-- The shape of a tree is that of its type token. -/
theorem Describes.read_shape {p : ParameterTexts} {tree : DomainTree} (h : Describes p tree) :
    Shape.read p.1.toList = .ok tree.shape := by
  obtain ⟨shape, hshape, hread⟩ := bind_eq_ok.mp h
  obtain ⟨rfl, -, -⟩ := DomainTree.read_eq_ok.mp hread
  exact DomainTree.inField_eq_ok.mp hshape

/-- Every input of a specification that is accepted, enumerated or drawn in whatever way, has one
value for each parameter: built as the parameter's type token says, from the characters that
its alphabets list, and such that its literal can be evaluated. -/
theorem typed_of_read {text : List Char} {spec : Spec} (h : read text = .ok spec) {σ : Type}
    (c : Sampling.Chooser σ) (rounds : Nat) (s : σ) (input : Input)
    (hinput : input ∈ DomainTree.inputs spec.parameters ∨
      input ∈ (BaseSet.randomInputs c spec.parameters rounds s).1) :
    List.Forall₂ (fun p v => (∃ shape, Shape.read p.1.toList = .ok shape ∧ v.HasShape shape) ∧
      v.Evaluable) (parameterTexts text) input := by
  obtain ⟨hdescribes, -, -⟩ := read_eq_ok h
  have hfinite := everywhere_of_read DomainTree.finiteFloats_ofRead h
  obtain ⟨side, hallows⟩ := BaseSet.exists_side_allows hinput
  have hvalues : List.Forall₂ (fun t v => t.Everywhere DomainTree.finiteFloats side ∧
      t.Allows side v) spec.parameters input :=
    (List.forall₂_and_left _ _).mpr ⟨fun t ht => hfinite t ht side, hallows⟩
  refine forall₂_comp (fun p t v hp hv => ?_) hdescribes hvalues
  obtain ⟨hfloats, hallows⟩ := hv
  have hshape := hp.read_shape
  exact ⟨⟨t.shape, hshape, hallows.hasShape⟩,
    hallows.evaluable (Shape.hashed_of_read hshape) hfloats⟩

/-- A specification of one parameter, a dictionary from tuples of doubles to strings. -/
def labelledText : List Char :=
  ("\x7b\"fname\": \"f\", \"types\": [\"dict(tuple(float):str(ab))\"], " ++
    "\"exhaustive domain\": [\"1(1([0.5,-0.0]):1)\"], " ++
    "\"random domain\": [\"2(2([1e300]):0~2)\"], \"num random\": 3\x7d").toList

/-- The domain tree of `labelledText`. -/
def labelled : DomainTree :=
  .dict (.tuple (.float ⟨[⟨0x3FE0000000000000⟩, ⟨0x8000000000000000⟩], [⟨0x7E37E43C8800759C⟩]⟩)
    ⟨[1], [2]⟩) (.str ['a', 'b'] ⟨[1], [0, 1, 2]⟩) ⟨[1], [2]⟩

/-- One of its inputs. -/
def labelledHalf : Input :=
  [.dict [(.tuple [.float ⟨0x3FE0000000000000⟩], .str "b")]]

theorem typed_of_read_labelled : ∃ spec, read labelledText = .ok spec ∧
    labelledHalf ∈ DomainTree.inputs spec.parameters ∧
    List.Forall₂ (fun p v => (∃ shape, Shape.read p.1.toList = .ok shape ∧ v.HasShape shape) ∧
      v.Evaluable) (parameterTexts labelledText) labelledHalf := by
  obtain ⟨spec, hread, hparameters⟩ : ∃ spec, read labelledText = .ok spec ∧
      spec.parameters = [labelled] := map_eq_ok.mp (by decide +kernel)
  have hinputs : DomainTree.inputs [labelled] =
      [[.dict [(.tuple [.float ⟨0x3FE0000000000000⟩], .str "a")]], labelledHalf,
        [.dict [(.tuple [.float ⟨0x8000000000000000⟩], .str "a")]],
        [.dict [(.tuple [.float ⟨0x8000000000000000⟩], .str "b")]]] := by
    cbv
  have hmem : labelledHalf ∈ DomainTree.inputs spec.parameters := by
    rw [hparameters, hinputs]
    exact List.mem_cons_of_mem _ List.mem_cons_self
  exact ⟨spec, hread, hmem, typed_of_read hread Sampling.script 0 [] labelledHalf (.inl hmem)⟩

end Spec

end Divergence
