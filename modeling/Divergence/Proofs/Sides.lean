/-
# `Divergence.Proofs.Sides` — one domain string at a time

The exhaustive and the random string of a parameter are read side by side, but
neither has a part in what becomes of the other.  `Reads` says of one string
alone that it describes one side of a domain tree, and two strings are read as a
tree if each of them describes its side (`read_eq_ok`).

What is proved about domain strings is proved about `Reads`, for one side.
-/
import Divergence.Proofs.Results

namespace Divergence

/-- One of the two collections of a node. -/
inductive Side where
  | exhaustive | random
  deriving DecidableEq, Repr

/-- The collection of a side. -/
def Domains.on {α : Type} (d : Domains α) : Side → List α
  | .exhaustive => d.exhaustive
  | .random => d.random

namespace DomainTree

open Divergence.Text

/-! ## Domains everywhere in a tree -/

/-- What is asked of a domain, for each kind of scalar. -/
structure DomainProperty where
  int : List Int → Prop
  float : List Binary64 → Prop
  bool : List Bool → Prop
  length : List Nat → Prop

/-- Every domain on a side of the tree has the property. -/
def Everywhere (P : DomainProperty) (side : Side) : DomainTree → Prop
  | .int values => P.int (values.on side)
  | .float values => P.float (values.on side)
  | .bool values => P.bool (values.on side)
  | .str _ lengths => P.length (lengths.on side)
  | .list element lengths | .tuple element lengths | .set element lengths =>
    element.Everywhere P side ∧ P.length (lengths.on side)
  | .dict key value lengths =>
    key.Everywhere P side ∧ value.Everywhere P side ∧ P.length (lengths.on side)

/-! ## Both strings at a node -/

theorem sides_eq_ok {α : Type} {reading : List Char → Except SpecError α} {x r : List Char}
    {a b : α} : sides reading x r = .ok (a, b) ↔ reading x = .ok a ∧ reading r = .ok b := by
  simp only [sides, bind_eq_ok, inField_eq_ok, pure, Except.pure, Except.ok.injEq,
    Prod.mk.injEq]
  constructor
  · rintro ⟨_, hx, _, hr, rfl, rfl⟩
    exact ⟨hx, hr⟩
  · rintro ⟨hx, hr⟩
    exact ⟨a, hx, b, hr, rfl, rfl⟩

theorem sides_eq_error {α : Type} {reading : List Char → Except SpecError α} {x r : List Char}
    {e : SpecError} : sides reading x r = .error e ↔
      (∃ cause, reading x = .error cause ∧ e = .inField .exhaustive cause) ∨
        ∃ a cause, reading x = .ok a ∧ reading r = .error cause ∧ e = .inField .random cause := by
  simp only [sides, bind_eq_error, inField_eq_ok, inField_eq_error]
  constructor
  · rintro (hx | ⟨a, ha, hr | ⟨b, -, hpure⟩⟩)
    · exact .inl hx
    · obtain ⟨cause, hcause, rfl⟩ := hr
      exact .inr ⟨a, cause, ha, hcause, rfl⟩
    · cases hpure
  · rintro (hx | ⟨a, cause, ha, hcause, rfl⟩)
    · exact .inl hx
    · exact .inr ⟨a, ha, .inl ⟨cause, hcause, rfl⟩⟩

theorem readDomains_eq_ok {α : Type} [Scalar α] {x r : List Char} {d : Domains α} :
    readDomains α x r = .ok d ↔
      SimpleDomain.read α x = .ok (d.on .exhaustive) ∧
        SimpleDomain.read α r = .ok (d.on .random) := by
  simp only [readDomains, bind_eq_ok, Prod.exists, sides_eq_ok, pure, Except.pure,
    Except.ok.injEq]
  constructor
  · rintro ⟨_, _, h, rfl⟩
    exact h
  · intro h
    exact ⟨_, _, h, rfl⟩

/-! ## One string -/

/-- A string describes one side of a domain tree. -/
def Reads (side : Side) : DomainTree → List Char → Prop
  | .int values, s => SimpleDomain.read Int s = .ok (values.on side)
  | .float values, s => SimpleDomain.read Binary64 s = .ok (values.on side)
  | .bool values, s => SimpleDomain.read Bool s = .ok (values.on side)
  | .str _ lengths, s => SimpleDomain.read Nat s = .ok (lengths.on side)
  | .list element lengths, s | .tuple element lengths, s | .set element lengths, s =>
    ∃ g, splitContainer s = .ok g ∧ element.Reads side g.inner ∧
      SimpleDomain.read Nat g.head = .ok (lengths.on side)
  | .dict key value lengths, s =>
    ∃ g k v, splitContainer s = .ok g ∧ splitEntry g.inner = .ok (k, v) ∧
      key.Reads side k ∧ value.Reads side v ∧
        SimpleDomain.read Nat g.head = .ok (lengths.on side)

/-- Two strings are read as a tree if each of them describes one side of it. -/
theorem read_eq_ok {shape : Shape} {x r : List Char} {t : DomainTree} :
    read shape x r = .ok t ↔
      t.shape = shape ∧ t.Reads .exhaustive x ∧ t.Reads .random r := by
  induction shape generalizing x r t with
  | int | float | bool | str =>
    simp only [read, map_eq_ok, readDomains_eq_ok]
    constructor
    · rintro ⟨d, h, rfl⟩
      exact ⟨rfl, h⟩
    · rintro ⟨hshape, h⟩
      cases t <;> cases hshape
      exact ⟨_, h, rfl⟩
  | list element ih | tuple element ih | set element ih =>
    simp only [read, bind_eq_ok, Prod.exists, sides_eq_ok, ih, readDomains_eq_ok, pure,
      Except.pure, Except.ok.injEq]
    constructor
    · rintro ⟨gx, gr, ⟨hgx, hgr⟩, elements, ⟨rfl, hx, hr⟩, lengths, ⟨hlx, hlr⟩, rfl⟩
      exact ⟨rfl, ⟨gx, hgx, hx, hlx⟩, gr, hgr, hr, hlr⟩
    · rintro ⟨hshape, hx, hr⟩
      cases t <;> cases hshape
      obtain ⟨gx, hgx, hx, hlx⟩ := hx
      obtain ⟨gr, hgr, hr, hlr⟩ := hr
      exact ⟨gx, gr, ⟨hgx, hgr⟩, _, ⟨rfl, hx, hr⟩, _, ⟨hlx, hlr⟩, rfl⟩
  | dict key value ihk ihv =>
    simp only [read, bind_eq_ok, Prod.exists, sides_eq_ok, ihk, ihv, readDomains_eq_ok, pure,
      Except.pure, Except.ok.injEq]
    constructor
    · rintro ⟨gx, gr, ⟨hgx, hgr⟩, kx, vx, kr, vr, ⟨hex, her⟩, keys, ⟨rfl, hkx, hkr⟩, values,
        ⟨rfl, hvx, hvr⟩, lengths, ⟨hlx, hlr⟩, rfl⟩
      exact ⟨rfl, ⟨gx, kx, vx, hgx, hex, hkx, hvx, hlx⟩, gr, kr, vr, hgr, her, hkr, hvr, hlr⟩
    · rintro ⟨hshape, hx, hr⟩
      cases t <;> cases hshape
      obtain ⟨gx, kx, vx, hgx, hex, hkx, hvx, hlx⟩ := hx
      obtain ⟨gr, kr, vr, hgr, her, hkr, hvr, hlr⟩ := hr
      exact ⟨gx, gr, ⟨hgx, hgr⟩, kx, vx, kr, vr, ⟨hex, her⟩, _, ⟨rfl, hkx, hkr⟩, _,
        ⟨rfl, hvx, hvr⟩, _, ⟨hlx, hlr⟩, rfl⟩

/-- Every simple domain that is read has the property. -/
structure DomainProperty.OfRead (P : DomainProperty) : Prop where
  int : ∀ {s values}, SimpleDomain.read Int s = .ok values → P.int values
  float : ∀ {s values}, SimpleDomain.read Binary64 s = .ok values → P.float values
  bool : ∀ {s values}, SimpleDomain.read Bool s = .ok values → P.bool values
  length : ∀ {s lengths}, SimpleDomain.read Nat s = .ok lengths → P.length lengths

theorem everywhere_of_reads {P : DomainProperty} (hP : P.OfRead) {side : Side} {t : DomainTree}
    {s : List Char} (h : t.Reads side s) : t.Everywhere P side := by
  induction t generalizing s with
  | int => exact hP.int h
  | float => exact hP.float h
  | bool => exact hP.bool h
  | str => exact hP.length h
  | list element _ ih | tuple element _ ih | set element _ ih =>
    obtain ⟨g, -, helement, hhead⟩ := h
    exact ⟨ih helement, hP.length hhead⟩
  | dict key value _ ihk ihv =>
    obtain ⟨g, k, v, -, -, hkey, hvalue, hhead⟩ := h
    exact ⟨ihk hkey, ihv hvalue, hP.length hhead⟩

end DomainTree

end Divergence
