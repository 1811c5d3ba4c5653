/-
# `Divergence.Proofs.Independence` — what one domain string can do to the other

The two strings of a parameter are checked in turns, node by node, so which of
them is found wrong first depends on both.  Nothing else does.  Reading a string
next to another goes as reading it next to itself: the collections of its side come
out the same, and what is found wrong with it is what is found wrong with it alone
(`Apart`).

That is shown for a single pair of readings first (`apart_sides`) and kept by every
step that is taken after another (`Apart.bind`), so the induction on the shape only
has to name the steps.
-/
import Divergence.Proofs.ReaderErrors
import Divergence.Proofs.Sides

namespace Divergence

/-- The collection of a side, on both sides. -/
def Domains.twice {α : Type} (side : Side) (d : Domains α) : Domains α :=
  ⟨d.on side, d.on side⟩

namespace DomainTree

/-- The tree with the collections of a side on both sides, at every node. -/
def twice (side : Side) : DomainTree → DomainTree
  | .int values => .int (values.twice side)
  | .float values => .float (values.twice side)
  | .bool values => .bool (values.twice side)
  | .str alphabet lengths => .str alphabet (lengths.twice side)
  | .list element lengths => .list (element.twice side) (lengths.twice side)
  | .tuple element lengths => .tuple (element.twice side) (lengths.twice side)
  | .set element lengths => .set (element.twice side) (lengths.twice side)
  | .dict key value lengths => .dict (key.twice side) (value.twice side) (lengths.twice side)

/-- A reading of two strings next to the readings of the exhaustive one, and of the random one,
with itself.  A result is made of parts of theirs.  An error is that of the string in whose
field it was found; with itself, a string is first found wrong as the exhaustive one. -/
structure Apart {α : Type} (exhaustivePart randomPart : α → α)
    (both exhaustive random : Except SpecError α) : Prop where
  of_ok : ∀ a, both = .ok a →
    exhaustive = .ok (exhaustivePart a) ∧ random = .ok (randomPart a)
  of_exhaustive : ∀ cause, both = .error (.inField .exhaustive cause) →
    exhaustive = .error (.inField .exhaustive cause)
  of_random : ∀ cause, both = .error (.inField .random cause) →
    random = .error (.inField .exhaustive cause)

section Apart

variable {α β : Type} {p q : α → α} {p' q' : β → β} {both x r : Except SpecError α}

theorem apart_ok {a b c : α} (hb : b = p a) (hc : c = q a) :
    Apart p q (.ok a) (.ok b) (.ok c) where
  of_ok := by
    intro a' h
    cases h
    exact ⟨congrArg _ hb, congrArg _ hc⟩
  of_exhaustive := by
    intro cause h
    cases h
  of_random := by
    intro cause h
    cases h

theorem Apart.bind {f g h : α → Except SpecError β} (hx : Apart p q both x r)
    (hf : ∀ a, Apart p' q' (f a) (g (p a)) (h (q a))) :
    Apart p' q' (both >>= f) (x >>= g) (r >>= h) where
  of_ok := by
    intro b hb
    obtain ⟨a, ha, hfa⟩ := bind_eq_ok.mp hb
    obtain ⟨hxa, hra⟩ := hx.of_ok a ha
    obtain ⟨hga, hha⟩ := (hf a).of_ok b hfa
    exact ⟨bind_eq_ok.mpr ⟨_, hxa, hga⟩, bind_eq_ok.mpr ⟨_, hra, hha⟩⟩
  of_exhaustive := by
    intro cause hcause
    rcases bind_eq_error.mp hcause with he | ⟨a, ha, hfa⟩
    · exact bind_eq_error.mpr (.inl (hx.of_exhaustive cause he))
    · exact bind_eq_error.mpr (.inr ⟨_, (hx.of_ok a ha).1, (hf a).of_exhaustive cause hfa⟩)
  of_random := by
    intro cause hcause
    rcases bind_eq_error.mp hcause with he | ⟨a, ha, hfa⟩
    · exact bind_eq_error.mpr (.inl (hx.of_random cause he))
    · exact bind_eq_error.mpr (.inr ⟨_, (hx.of_ok a ha).2, (hf a).of_random cause hfa⟩)

theorem Apart.map {f : α → β} (hx : Apart p q both x r) (hp : ∀ a, f (p a) = p' (f a))
    (hq : ∀ a, f (q a) = q' (f a)) : Apart p' q' (both.map f) (x.map f) (r.map f) where
  of_ok := by
    intro b hb
    obtain ⟨a, ha, rfl⟩ := map_eq_ok.mp hb
    obtain ⟨hxa, hra⟩ := hx.of_ok a ha
    exact ⟨map_eq_ok.mpr ⟨_, hxa, hp a⟩, map_eq_ok.mpr ⟨_, hra, hq a⟩⟩
  of_exhaustive := fun cause hcause =>
    map_eq_error.mpr (hx.of_exhaustive cause (map_eq_error.mp hcause))
  of_random := fun cause hcause =>
    map_eq_error.mpr (hx.of_random cause (map_eq_error.mp hcause))

end Apart

/-! ## Both strings at a node -/

/-- What two strings are read as depends on each of them alone. -/
theorem apart_sides {α : Type} (reading : List Char → Except SpecError α) (x r : List Char) :
    Apart (fun p => (p.1, p.1)) (fun p => (p.2, p.2)) (sides reading x r) (sides reading x x)
      (sides reading r r) where
  of_ok := by
    rintro ⟨a, b⟩ h
    obtain ⟨hx, hr⟩ := sides_eq_ok.mp h
    exact ⟨sides_eq_ok.mpr ⟨hx, hx⟩, sides_eq_ok.mpr ⟨hr, hr⟩⟩
  of_exhaustive := by
    intro cause h
    rcases sides_eq_error.mp h with ⟨cause', hx, heq⟩ | ⟨a, cause', -, -, heq⟩
    · cases heq
      exact sides_eq_error.mpr (.inl ⟨cause, hx, rfl⟩)
    · cases heq
  of_random := by
    intro cause h
    rcases sides_eq_error.mp h with ⟨cause', -, heq⟩ | ⟨a, cause', -, hr, heq⟩
    · cases heq
    · cases heq
      exact sides_eq_error.mpr (.inl ⟨cause, hr, rfl⟩)

theorem apart_readDomains (α : Type) [Scalar α] (x r : List Char) :
    Apart (Domains.twice .exhaustive) (Domains.twice .random) (readDomains α x r)
      (readDomains α x x) (readDomains α r r) :=
  (apart_sides (SimpleDomain.read α) x r).bind fun _ => apart_ok rfl rfl

theorem apart_read (shape : Shape) (x r : List Char) :
    Apart (twice .exhaustive) (twice .random) (read shape x r) (read shape x x)
      (read shape r r) := by
  induction shape generalizing x r with
  | int | float | bool | str =>
    exact (apart_readDomains _ x r).map (fun _ => rfl) fun _ => rfl
  | list element ih | tuple element ih | set element ih =>
    exact (apart_sides splitContainer x r).bind fun g =>
      (ih g.1.inner g.2.inner).bind fun elements =>
        (apart_readDomains Nat g.1.head g.2.head).bind fun lengths => apart_ok rfl rfl
  | dict key value ihk ihv =>
    exact (apart_sides splitContainer x r).bind fun g =>
      (apart_sides splitEntry g.1.inner g.2.inner).bind fun e =>
        (ihk e.1.1 e.2.1).bind fun keys => (ihv e.1.2 e.2.2).bind fun values =>
          (apart_readDomains Nat g.1.head g.2.head).bind fun lengths => apart_ok rfl rfl

/-! ## Independence -/

/-- The two strings of a parameter do not influence each other.  They are read if each of them is
read with itself, and then each side of the tree is the tree of its string.  Otherwise what is
found wrong is found in the field of one of them, and is found wrong with that string itself. -/
theorem read_independent (shape : Shape) (x r : List Char) :
    ((∃ t, read shape x r = .ok t) ↔
      (∃ t, read shape x x = .ok t) ∧ ∃ t, read shape r r = .ok t) ∧
    (∀ t, read shape x r = .ok t →
      read shape x x = .ok (t.twice .exhaustive) ∧ read shape r r = .ok (t.twice .random)) ∧
    ∀ e, read shape x r = .error e →
      ∃ field cause, e = .inField field cause ∧ cause.root = cause ∧
        (field = .exhaustive ∧ read shape x x = .error (.inField .exhaustive cause) ∨
          field = .random ∧ read shape r r = .error (.inField .exhaustive cause)) := by
  have hapart := apart_read shape x r
  have herror (e : SpecError) (he : read shape x r = .error e) :
      ∃ field cause, e = .inField field cause ∧ cause.root = cause ∧
        (field = .exhaustive ∧ read shape x x = .error (.inField .exhaustive cause) ∨
          field = .random ∧ read shape r r = .error (.inField .exhaustive cause)) := by
    obtain ⟨field, cause, hfield, hcause, rfl⟩ := read_errors shape x r e he
    refine ⟨field, cause, rfl, hcause.root_eq, ?_⟩
    rcases hfield with rfl | rfl
    · exact .inl ⟨rfl, hapart.of_exhaustive cause he⟩
    · exact .inr ⟨rfl, hapart.of_random cause he⟩
  refine ⟨⟨?_, ?_⟩, hapart.of_ok, herror⟩
  · rintro ⟨t, ht⟩
    obtain ⟨hx, hr⟩ := hapart.of_ok t ht
    exact ⟨⟨_, hx⟩, _, hr⟩
  · rintro ⟨⟨tx, htx⟩, tr, htr⟩
    cases hboth : read shape x r with
    | ok t => exact ⟨t, rfl⟩
    | error e =>
      obtain ⟨field, cause, -, -, ⟨-, hx⟩ | ⟨-, hr⟩⟩ := herror e hboth
      · rw [htx] at hx
        cases hx
      · rw [htr] at hr
        cases hr

/-- A random string without elements is found wrong before the elements of the exhaustive one
are read, although these are wrong as well. -/
theorem read_independent_lists :
    (read (.list .int) "1(0~1)".toList "[0,2](5)".toList =
        .ok (.list (.int ⟨[0, 1], [5]⟩) ⟨[1], [0, 2]⟩) ∧
      read (.list .int) "1(0~1)".toList "1(0~1)".toList =
        .ok (.list (.int ⟨[0, 1], [0, 1]⟩) ⟨[1], [1]⟩)) ∧
    read (.list .int) "1(a)".toList "2()".toList =
        .error (.inField .random (.malformedDomain "2()" .emptyElements)) ∧
      read (.list .int) "2()".toList "2()".toList =
        .error (.inField .exhaustive (.malformedDomain "2()" .emptyElements)) := by
  have hread : read (.list .int) "1(0~1)".toList "[0,2](5)".toList =
      .ok (.list (.int ⟨[0, 1], [5]⟩) ⟨[1], [0, 2]⟩) := by decide +kernel
  have hwrong : read (.list .int) "1(a)".toList "2()".toList =
      .error (.inField .random (.malformedDomain "2()" .emptyElements)) := by decide +kernel
  obtain ⟨-, hok, -⟩ := read_independent (.list .int) "1(0~1)".toList "[0,2](5)".toList
  obtain ⟨-, -, herror⟩ := read_independent (.list .int) "1(a)".toList "2()".toList
  obtain ⟨field, cause, heq, -, hcases⟩ := herror _ hwrong
  cases heq
  rcases hcases with ⟨hfield, -⟩ | ⟨-, hrandom⟩
  · cases hfield
  · exact ⟨⟨hread, (hok _ hread).1⟩, hwrong, hrandom⟩

end DomainTree

end Divergence
