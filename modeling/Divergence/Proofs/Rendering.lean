/-
# `Divergence.Proofs.Rendering` — literals are uniquely readable

A literal shows where it ends: whatever comes after it, as long as that is nothing
or a delimiter, the text tells both what the value is and where it stops
(`literal_append_inj`).  This goes through a value from the outside in.  Its first
character tells its kind, except that integers open like doubles and sets like
dictionaries.  A double has a point or an exponent, and a dictionary a colon after
its first key; the tuple of one value has its comma where others have their closing
bracket or another value.  Inside a string an escape is read back without looking
at what comes after it.

Of doubles only finite ones are considered: all NaNs are written alike.
-/
import Divergence.Proofs.FloatText
import Divergence.Proofs.Orders
import Divergence.Value.Literal

namespace Divergence.Value

open Divergence.Text Binary64

/-! ## Doubles inside -/

mutual

/-- The doubles in a value. -/
def floats : Value → List Binary64
  | .float x => [x]
  | .int _ | .bool _ | .str _ => []
  | .list items | .tuple items | .set items => floatsOfItems items
  | .dict entries => floatsOfEntries entries

def floatsOfItems : List Value → List Binary64
  | [] => []
  | a :: as => floats a ++ floatsOfItems as

def floatsOfEntries : List (Value × Value) → List Binary64
  | [] => []
  | (k, v) :: as => floats k ++ floats v ++ floatsOfEntries as

end

/-- No double in the value is infinite or a NaN. -/
def FloatsFinite (v : Value) : Prop :=
  ∀ x ∈ v.floats, x.isFinite = true

instance (v : Value) : Decidable v.FloatsFinite :=
  inferInstanceAs (Decidable (∀ x ∈ v.floats, x.isFinite = true))

theorem forall_mem_floatsOfItems {P : Binary64 → Prop} {items : List Value} :
    (∀ x ∈ floatsOfItems items, P x) ↔ ∀ v ∈ items, ∀ x ∈ v.floats, P x := by
  induction items with
  | nil => simp [floatsOfItems]
  | cons a as ih => rw [floatsOfItems, List.forall_mem_append, ih, List.forall_mem_cons]

theorem forall_mem_floatsOfEntries {P : Binary64 → Prop} {entries : List (Value × Value)} :
    (∀ x ∈ floatsOfEntries entries, P x) ↔
      ∀ e ∈ entries, (∀ x ∈ e.1.floats, P x) ∧ ∀ x ∈ e.2.floats, P x := by
  induction entries with
  | nil => simp [floatsOfEntries]
  | cons e as ih =>
    rw [floatsOfEntries, List.forall_mem_append, List.forall_mem_append, ih, List.forall_mem_cons]

@[simp] theorem floatsFinite_int (i : Int) : (Value.int i).FloatsFinite :=
  fun _ hx => absurd hx List.not_mem_nil

@[simp] theorem floatsFinite_bool (b : Bool) : (Value.bool b).FloatsFinite :=
  fun _ hx => absurd hx List.not_mem_nil

@[simp] theorem floatsFinite_str (s : String) : (Value.str s).FloatsFinite :=
  fun _ hx => absurd hx List.not_mem_nil

theorem floatsFinite_float {x : Binary64} : (Value.float x).FloatsFinite ↔ x.isFinite = true :=
  List.forall_mem_singleton

theorem floatsFinite_list {items : List Value} :
    (Value.list items).FloatsFinite ↔ ∀ v ∈ items, v.FloatsFinite :=
  forall_mem_floatsOfItems

theorem floatsFinite_tuple {items : List Value} :
    (Value.tuple items).FloatsFinite ↔ ∀ v ∈ items, v.FloatsFinite :=
  forall_mem_floatsOfItems

theorem floatsFinite_set {elements : List Value} :
    (Value.set elements).FloatsFinite ↔ ∀ v ∈ elements, v.FloatsFinite :=
  forall_mem_floatsOfItems

theorem floatsFinite_dict {entries : List (Value × Value)} :
    (Value.dict entries).FloatsFinite ↔
      ∀ e ∈ entries, e.1.FloatsFinite ∧ e.2.FloatsFinite :=
  forall_mem_floatsOfEntries

/-! ## Strings -/

/-- The value of a digit of base sixteen. -/
def hexValue (c : Char) : Nat :=
  if c.isDigit then c.toNat - '0'.toNat else c.toNat - 'a'.toNat + 10

theorem hexValue_digitChar : ∀ n < 16, hexValue (Nat.digitChar n) = n := by
  decide

/-- The character that stands first inside a string literal, and what comes after it.  A quote
that is not escaped ends the string. -/
def unescape? : List Char → Option (Char × List Char)
  | '\\' :: 'n' :: rest => some ('\n', rest)
  | '\\' :: 'r' :: rest => some ('\r', rest)
  | '\\' :: 't' :: rest => some ('\t', rest)
  | '\\' :: 'x' :: high :: low :: rest =>
    some (Char.ofNat (16 * hexValue high + hexValue low), rest)
  | '\\' :: c :: rest => some (c, rest)
  | '\'' :: _ => none
  | c :: rest => some (c, rest)
  | [] => none

theorem unescape?_escape (c : Char) (rest : List Char) :
    unescape? (escape c ++ rest) = some (c, rest) := by
  unfold escape
  split
  · next h => rw [h]; rfl
  split
  · next h => rw [h]; rfl
  split
  · next h => rw [h]; rfl
  split
  · next h => rw [h]; rfl
  split
  · next h => rw [h]; rfl
  split
  · next hcontrol =>
    have hsmall : c.toNat < 256 := by
      simp [isControl] at hcontrol
      omega
    show some (Char.ofNat (16 * hexValue (Nat.digitChar (c.toNat / 16)) +
      hexValue (Nat.digitChar (c.toNat % 16))), rest) = _
    rw [hexValue_digitChar _ (by omega), hexValue_digitChar _ (by omega), Nat.div_add_mod,
      Char.ofNat_toNat]
  · next hbackslash _ _ _ _ _ =>
    simp [unescape?, hbackslash]

theorem escapes_append_inj {cs ds r r' : List Char}
    (h : cs.flatMap escape ++ '\'' :: r = ds.flatMap escape ++ '\'' :: r') :
    cs = ds ∧ r = r' := by
  have hquote (rest : List Char) : unescape? ('\'' :: rest) = none := rfl
  have hread := congrArg unescape? h
  induction cs generalizing ds with
  | nil => cases ds with
    | nil => exact ⟨rfl, List.tail_eq_of_cons_eq h⟩
    | cons d ds =>
      rw [List.flatMap_cons, List.append_assoc, unescape?_escape] at hread
      cases hread
  | cons c cs ih => cases ds with
    | nil =>
      rw [List.flatMap_cons, List.append_assoc, unescape?_escape] at hread
      cases hread
    | cons d ds =>
      rw [List.flatMap_cons, List.flatMap_cons, List.append_assoc, List.append_assoc,
        unescape?_escape, unescape?_escape, Option.some.injEq, Prod.mk.injEq] at hread
      obtain ⟨rfl, hrest⟩ := hread
      obtain ⟨rfl, hr⟩ := ih hrest (congrArg unescape? hrest)
      exact ⟨rfl, hr⟩

/-- A string literal ends with its quote. -/
theorem quote_append_inj {s t : String} {r r' : List Char}
    (h : quote s ++ r = quote t ++ r') : s = t ∧ r = r' := by
  rw [quote, quote, List.cons_append, List.cons_append, List.append_assoc,
    List.append_assoc] at h
  obtain ⟨hchars, hr⟩ := escapes_append_inj (List.tail_eq_of_cons_eq h)
  exact ⟨String.toList_inj.mp hchars, hr⟩

/-! ## Ends of literals -/

/-- The characters that can follow a literal. -/
def delimiters : List Char :=
  [',', ':', ']', ')', '\x7d']

/-- Nothing or a delimiter comes next. -/
def Ends (r : List Char) : Prop :=
  ∀ c ∈ r.head?, c ∈ delimiters

/-- A sequence ends here: what comes next does not lead to another entry. -/
def Closes (r : List Char) : Prop :=
  Ends r ∧ ¬ [',', ' '] <+: r

/-- The text begins with something other than a delimiter. -/
def Opens (s : List Char) : Prop :=
  ∃ c ∈ s.head?, c ∉ delimiters

theorem ends_cons {c : Char} (hc : c ∈ delimiters) (r : List Char) : Ends (c :: r) := by
  intro d hd
  cases hd
  exact hc

theorem Opens.append_ne {s r : List Char} (hs : Opens s) (hr : Ends r) (rest : List Char) :
    s ++ rest ≠ r := by
  obtain ⟨c, hc, hnone⟩ := hs
  rintro rfl
  exact hnone (hr c (List.mem_head?_append_of_mem_head? hc))

/-! ## Numbers -/

theorem not_isNumeral_of_ends {r : List Char} (hr : Ends r) :
    ∀ c ∈ r.head?, isNumeral c = false := by
  intro c hc
  have hdelimiter := hr c hc
  simp only [delimiters, List.mem_cons, List.not_mem_nil, or_false] at hdelimiter
  rcases hdelimiter with rfl | rfl | rfl | rfl | rfl <;> rfl

theorem numerals_append_inj {s t r r' : List Char} (hs : Numerals s) (ht : Numerals t)
    (hr : Ends r) (hr' : Ends r') (h : s ++ r = t ++ r') : s = t ∧ r = r' := by
  have hst : s = t := by
    rw [← takeWhile_run hs (not_isNumeral_of_ends hr), h,
      takeWhile_run ht (not_isNumeral_of_ends hr')]
  subst hst
  exact ⟨rfl, List.append_cancel_left h⟩

/-! ## Sequences -/

section Separated

variable {α : Type} (write : α → List Char)

/-- The texts of several entries, with a comma and a blank between them. -/
def separated : List α → List Char
  | [] => []
  | [a] => write a
  | a :: as => write a ++ ',' :: ' ' :: separated as

/-- What comes after the first of several entries. -/
def continued : List α → List Char
  | [] => []
  | as => ',' :: ' ' :: separated write as

theorem separated_cons (a : α) (as : List α) :
    separated write (a :: as) = write a ++ continued write as := by
  cases as with
  | nil => exact (List.append_nil _).symm
  | cons b as => rfl

end Separated

/-- What is written for a value, with an end after it, tells the value and where it ends, among
all values of some kind. -/
def Readable {α : Type} (write : α → List Char) (P : α → Prop) (a : α) : Prop :=
  ∀ b r r', P b → Ends r → Ends r' → write a ++ r = write b ++ r' → a = b ∧ r = r'

section Separated

variable {α : Type} {write : α → List Char} {P : α → Prop}

theorem ends_continued (as : List α) {r : List Char} (hr : Ends r) :
    Ends (continued write as ++ r) := by
  cases as with
  | nil => exact hr
  | cons a as => exact ends_cons List.mem_cons_self _

theorem separated_append_inj (hopens : ∀ a, P a → Opens (write a)) {as : List α}
    (h : ∀ a ∈ as, P a ∧ Readable write P a) :
    ∀ bs r r', (∀ b ∈ bs, P b) → Closes r → Closes r' →
      separated write as ++ r = separated write bs ++ r' → as = bs ∧ r = r' := by
  induction as with
  | nil =>
    intro bs r r' hbs hr _ heq
    cases bs with
    | nil => exact ⟨rfl, heq⟩
    | cons b bs =>
      rw [separated_cons, List.append_assoc] at heq
      exact absurd heq.symm ((hopens b (hbs b List.mem_cons_self)).append_ne hr.1 _)
  | cons a as ih =>
    obtain ⟨⟨ha, hread⟩, has⟩ := List.forall_mem_cons.mp h
    intro bs r r' hbs hr hr' heq
    cases bs with
    | nil =>
      rw [separated_cons, List.append_assoc] at heq
      exact absurd heq ((hopens a ha).append_ne hr'.1 _)
    | cons b bs =>
      obtain ⟨hb, hrestP⟩ := List.forall_mem_cons.mp hbs
      rw [separated_cons, separated_cons, List.append_assoc, List.append_assoc] at heq
      obtain ⟨rfl, hrest⟩ :=
        hread b _ _ hb (ends_continued as hr.1) (ends_continued bs hr'.1) heq
      -- after equal entries either list goes on with a comma and a blank, or closes
      cases as with
      | nil => cases bs with
        | nil => exact ⟨rfl, hrest⟩
        | cons d bs => exact absurd ⟨_, hrest.symm⟩ hr.2
      | cons c as => cases bs with
        | nil => exact absurd ⟨_, hrest⟩ hr'.2
        | cons d bs =>
          obtain ⟨heq, hrr⟩ :=
            ih has (d :: bs) r r' hrestP hr hr' (by simpa [continued] using hrest)
          exact ⟨by rw [heq], hrr⟩

end Separated

/-! ## Containers -/

/-- The text of an entry of a dictionary. -/
def entryLiteral (e : Value × Value) : List Char :=
  e.1.literal ++ ':' :: ' ' :: e.2.literal

theorem joined_eq_separated (items : List Value) : joined items = separated literal items := by
  induction items with
  | nil => rfl
  | cons a as ih => cases as with
    | nil => rfl
    | cons b as =>
      show literal a ++ ',' :: ' ' :: joined (b :: as) = _
      rw [ih]
      rfl

theorem joinedEntries_eq_separated (entries : List (Value × Value)) :
    joinedEntries entries = separated entryLiteral entries := by
  induction entries with
  | nil => rfl
  | cons e es ih => cases es with
    | nil => rfl
    | cons e' es =>
      show literal e.1 ++ ':' :: ' ' :: (literal e.2 ++ ',' :: ' ' :: joinedEntries (e' :: es)) = _
      rw [ih]
      exact (List.append_assoc e.1.literal (':' :: ' ' :: e.2.literal) _).symm

/-- What comes after the entries of a tuple. -/
def tupleEnd (items : List Value) : List Char :=
  if items.length = 1 then [',', ')'] else [')']

theorem literal_tuple (items : List Value) :
    literal (.tuple items) = '(' :: (separated literal items ++ tupleEnd items) := by
  match items with
  | [] => rfl
  | [a] => rfl
  | a :: b :: as =>
    rw [← joined_eq_separated]
    rfl

theorem literal_list (items : List Value) :
    literal (.list items) = '[' :: (separated literal items ++ [']']) := by
  rw [← joined_eq_separated]
  rfl

theorem literal_set {elements : List Value} (h : elements ≠ []) :
    literal (.set elements) = '\x7b' :: (separated literal elements ++ ['\x7d']) := by
  cases elements with
  | nil => exact absurd rfl h
  | cons a as =>
    rw [← joined_eq_separated]
    rfl

theorem literal_dict (entries : List (Value × Value)) :
    literal (.dict entries) = '\x7b' :: (separated entryLiteral entries ++ ['\x7d']) := by
  rw [← joinedEntries_eq_separated]
  rfl

/-! ## Openings -/

/-- How a literal begins. -/
inductive Opening where
  | number | word | quote | bracket | parenthesis | brace
  deriving DecidableEq

/-- How a value's literal begins.  The empty set is a call and counts with the others. -/
def opening : Value → Opening
  | .int _ | .float _ => .number
  | .bool _ => .word
  | .str _ => .quote
  | .list _ => .bracket
  | .tuple _ => .parenthesis
  | .set _ | .dict _ => .brace

/-- What a character begins. -/
def openingOf? (c : Char) : Option Opening :=
  if isNumeral c then some .number
  else if c = 'T' ∨ c = 'F' then some .word
  else if c = '\'' then some .quote
  else if c = '[' then some .bracket
  else if c = '(' then some .parenthesis
  else if c = '\x7b' ∨ c = 's' then some .brace
  else none

theorem openingOf?_of_numerals {s : List Char} (h : Numerals s) (hne : s ≠ []) :
    s.head?.bind openingOf? = some .number := by
  obtain ⟨c, rest, rfl⟩ := List.exists_cons_of_ne_nil hne
  show openingOf? c = _
  rw [openingOf?, if_pos (h c List.mem_cons_self)]

theorem ofInt_ne_nil (i : Int) : Text.ofInt i ≠ [] := by
  unfold Text.ofInt
  split
  · exact List.cons_ne_nil _ _
  · exact List.isEmpty_eq_false_iff.mp (by simp [Text.ofNat, List.isEmpty_eq_false_iff])

theorem opening_literal {v : Value} (h : v.FloatsFinite) :
    v.literal.head?.bind openingOf? = some v.opening := by
  cases v with
  | int i => exact openingOf?_of_numerals (numerals_ofInt i) (ofInt_ne_nil i)
  | float x =>
    have hx := floatsFinite_float.mp h
    refine openingOf?_of_numerals (numerals_text hx) fun hnil => ?_
    have hmark := hasMark_text hx
    change x.text = [] at hnil
    rw [hnil] at hmark
    simp [HasMark] at hmark
  | bool b => cases b <;> decide
  | str s => rfl
  | list items => rfl
  | tuple items =>
    rw [literal_tuple]
    rfl
  | set elements => cases elements <;> rfl
  | dict entries => rfl

theorem opens_literal {v : Value} (h : v.FloatsFinite) : Opens v.literal := by
  have hopening := opening_literal h
  obtain ⟨c, hc, hsome⟩ := Option.bind_eq_some_iff.mp hopening
  refine ⟨c, hc, fun hmem => ?_⟩
  simp only [delimiters, List.mem_cons, List.not_mem_nil, or_false] at hmem
  rcases hmem with rfl | rfl | rfl | rfl | rfl <;> cases hsome

/-- Values whose literals begin alike open alike. -/
theorem opening_eq {v w : Value} (hv : v.FloatsFinite) (hw : w.FloatsFinite) {r r' : List Char}
    (h : v.literal ++ r = w.literal ++ r') : v.opening = w.opening := by
  have hopening {v : Value} (hv : v.FloatsFinite) (r : List Char) :
      (v.literal ++ r).head?.bind openingOf? = some v.opening := by
    obtain ⟨c, hc, hsome⟩ := Option.bind_eq_some_iff.mp (opening_literal hv)
    rw [List.mem_head?_append_of_mem_head? hc]
    exact hsome
  have heq := hopening hv r
  rw [h, hopening hw r'] at heq
  exact (Option.some.inj heq).symm

/-! ## Literals -/

theorem closes_of_mem {c : Char} (hc : c ∈ [']', ')', '\x7d']) (r : List Char) :
    Closes (c :: r) := by
  refine ⟨ends_cons (List.mem_cons_of_mem _ (List.mem_cons_of_mem _ hc)) r, ?_⟩
  rintro ⟨rest, heq⟩
  cases heq
  exact absurd hc (by decide)

theorem closes_bracket (r : List Char) : Closes (']' :: r) :=
  closes_of_mem (by decide) r

theorem closes_brace (r : List Char) : Closes ('\x7d' :: r) :=
  closes_of_mem (by decide) r

theorem closes_tupleEnd (items : List Value) (r : List Char) : Closes (tupleEnd items ++ r) := by
  unfold tupleEnd
  split
  · exact ⟨ends_cons List.mem_cons_self _, by simp⟩
  · exact closes_of_mem (by decide) r

theorem ends_colon (r : List Char) : Ends (':' :: r) :=
  ends_cons (by decide) r

theorem opens_entry {e : Value × Value} (h : e.1.FloatsFinite ∧ e.2.FloatsFinite) :
    Opens (entryLiteral e) := by
  obtain ⟨c, hc, hnone⟩ := opens_literal h.1
  exact ⟨c, List.mem_head?_append_of_mem_head? hc, hnone⟩

theorem readable_entry {e : Value × Value} (hkey : Readable literal FloatsFinite e.1)
    (hvalue : Readable literal FloatsFinite e.2) :
    Readable entryLiteral (fun e => e.1.FloatsFinite ∧ e.2.FloatsFinite) e := by
  rintro ⟨k, v⟩ r r' ⟨hk, hv⟩ hr hr' h
  simp only [entryLiteral, List.append_assoc, List.cons_append] at h
  obtain ⟨hkeys, hrest⟩ := hkey k _ _ hk (ends_colon _) (ends_colon _) h
  obtain ⟨hvalues, hrr⟩ := hvalue v r r' hv hr hr'
    (List.tail_eq_of_cons_eq (List.tail_eq_of_cons_eq hrest))
  exact ⟨Prod.ext hkeys hvalues, hrr⟩

theorem head?_continued_append {α : Type} (write : α → List Char) (as : List α) {c : Char}
    (r : List Char) :
    (continued write as ++ c :: r).head? = some ',' ∨
      (continued write as ++ c :: r).head? = some c := by
  cases as with
  | nil => exact .inr rfl
  | cons a as => exact .inl rfl

/-- A colon comes after the first key of a dictionary, and none after an element of a set.  It is
enough if the texts of either are readable. -/
theorem separated_ne {elements : List Value} {entries : List (Value × Value)} (hne : elements ≠ [])
    (helements : ∀ v ∈ elements, v.FloatsFinite)
    (hentries : ∀ e ∈ entries, e.1.FloatsFinite ∧ e.2.FloatsFinite)
    (hread : (∀ v ∈ elements, Readable literal FloatsFinite v) ∨
      ∀ e ∈ entries, Readable literal FloatsFinite e.1) (r r' : List Char) :
    separated literal elements ++ '\x7d' :: r ≠
      separated entryLiteral entries ++ '\x7d' :: r' := by
  intro h
  obtain ⟨v, vs, rfl⟩ := List.exists_cons_of_ne_nil hne
  have hv := helements v List.mem_cons_self
  rw [separated_cons, List.append_assoc] at h
  cases entries with
  | nil => exact (opens_literal hv).append_ne (closes_brace r').1 _ h
  | cons e es =>
    have he := hentries e List.mem_cons_self
    rw [separated_cons, entryLiteral, List.append_assoc, List.append_assoc] at h
    have hends : Ends (continued literal vs ++ '\x7d' :: r) :=
      ends_continued vs (closes_brace r).1
    have hends' : Ends (':' :: ' ' :: e.2.literal ++ (continued entryLiteral es ++ '\x7d' :: r')) :=
      ends_colon _
    have hrest : continued literal vs ++ '\x7d' :: r =
        ':' :: ' ' :: e.2.literal ++ (continued entryLiteral es ++ '\x7d' :: r') := by
      rcases hread with hread | hread
      · exact (hread v List.mem_cons_self e.1 _ _ he.1 hends hends' h).2
      · exact (hread e List.mem_cons_self v _ _ hv hends' hends h.symm).2.symm
    have hhead := head?_continued_append literal vs (c := '\x7d') r
    rw [hrest] at hhead
    simp at hhead

theorem readable_int (i : Int) : Readable literal FloatsFinite (.int i) := by
  intro b r r' hb hr hr' h
  have hopening := opening_eq (floatsFinite_int i) hb h
  cases b with
  | int j =>
    obtain ⟨htext, hrest⟩ :=
      numerals_append_inj (numerals_ofInt i) (numerals_ofInt j) hr hr' h
    have hij := congrArg integer? htext
    rw [integer?_ofInt, integer?_ofInt, Option.some.injEq] at hij
    exact ⟨congrArg Value.int hij, hrest⟩
  | float y =>
    have hy := floatsFinite_float.mp hb
    obtain ⟨htext, -⟩ := numerals_append_inj (numerals_ofInt i) (numerals_text hy) hr hr' h
    exact absurd (htext ▸ hasMark_text hy) (not_hasMark_ofInt i)
  | _ => cases hopening

theorem readable_float {x : Binary64} (hx : x.isFinite = true) :
    Readable literal FloatsFinite (.float x) := by
  intro b r r' hb hr hr' h
  have hopening := opening_eq (floatsFinite_float.mpr hx) hb h
  cases b with
  | int j =>
    obtain ⟨htext, -⟩ := numerals_append_inj (numerals_text hx) (numerals_ofInt j) hr hr' h
    exact absurd (htext ▸ hasMark_text hx) (not_hasMark_ofInt j)
  | float y =>
    have hy := floatsFinite_float.mp hb
    obtain ⟨htext, hrest⟩ := numerals_append_inj (numerals_text hx) (numerals_text hy) hr hr' h
    exact ⟨congrArg Value.float (text_inj hx hy htext), hrest⟩
  | _ => cases hopening

theorem readable_bool (p : Bool) : Readable literal FloatsFinite (.bool p) := by
  intro b r r' hb hr hr' h
  have hopening := opening_eq (floatsFinite_bool p) hb h
  cases b with
  | bool q => cases p <;> cases q <;> simp [literal] at h ⊢ <;> exact h
  | _ => cases hopening

theorem readable_str (s : String) : Readable literal FloatsFinite (.str s) := by
  intro b r r' hb hr hr' h
  have hopening := opening_eq (floatsFinite_str s) hb h
  cases b with
  | str t =>
    obtain ⟨rfl, hrest⟩ := quote_append_inj h
    exact ⟨rfl, hrest⟩
  | _ => cases hopening

/-- The empty set is a call, and no other set or dictionary is. -/
theorem call_append_ne (s r : List Char) : literal (.set []) ++ s ≠ '\x7b' :: r := by
  intro h
  cases h

section Containers

variable {items : List Value} (hitems : ∀ v ∈ items, v.FloatsFinite)
  (hread : ∀ v ∈ items, Readable literal FloatsFinite v)

include hitems hread

theorem readable_list : Readable literal FloatsFinite (.list items) := by
  intro b r r' hb hr hr' h
  have hopening := opening_eq (floatsFinite_list.mpr hitems) hb h
  cases b with
  | list items' =>
    rw [literal_list, literal_list, List.cons_append, List.cons_append, List.append_assoc,
      List.append_assoc] at h
    obtain ⟨rfl, hrest⟩ := separated_append_inj (fun _ => opens_literal)
      (fun v hv => ⟨hitems v hv, hread v hv⟩) items' _ _ (floatsFinite_list.mp hb)
      (closes_bracket r) (closes_bracket r') (List.tail_eq_of_cons_eq h)
    exact ⟨rfl, List.tail_eq_of_cons_eq hrest⟩
  | _ => cases hopening

theorem readable_tuple : Readable literal FloatsFinite (.tuple items) := by
  intro b r r' hb hr hr' h
  have hopening := opening_eq (floatsFinite_tuple.mpr hitems) hb h
  cases b with
  | tuple items' =>
    rw [literal_tuple, literal_tuple, List.cons_append, List.cons_append, List.append_assoc,
      List.append_assoc] at h
    obtain ⟨rfl, hrest⟩ := separated_append_inj (fun _ => opens_literal)
      (fun v hv => ⟨hitems v hv, hread v hv⟩) items' _ _ (floatsFinite_tuple.mp hb)
      (closes_tupleEnd items r) (closes_tupleEnd items' r') (List.tail_eq_of_cons_eq h)
    exact ⟨rfl, List.append_cancel_left hrest⟩
  | _ => cases hopening

theorem readable_set : Readable literal FloatsFinite (.set items) := by
  intro b r r' hb hr hr' h
  have hopening := opening_eq (floatsFinite_set.mpr hitems) hb h
  cases b with
  | set items' =>
    by_cases hempty : items = [] <;> by_cases hempty' : items' = []
    · subst hempty hempty'
      exact ⟨rfl, List.append_cancel_left h⟩
    · rw [hempty, literal_set hempty'] at h
      exact absurd h (call_append_ne _ _)
    · rw [hempty', literal_set hempty] at h
      exact absurd h.symm (call_append_ne _ _)
    · rw [literal_set hempty, literal_set hempty', List.cons_append, List.cons_append,
        List.append_assoc, List.append_assoc] at h
      obtain ⟨rfl, hrest⟩ := separated_append_inj (fun _ => opens_literal)
        (fun v hv => ⟨hitems v hv, hread v hv⟩) items' _ _ (floatsFinite_set.mp hb)
        (closes_brace r) (closes_brace r') (List.tail_eq_of_cons_eq h)
      exact ⟨rfl, List.tail_eq_of_cons_eq hrest⟩
  | dict entries =>
    by_cases hempty : items = []
    · rw [hempty, literal_dict] at h
      exact absurd h (call_append_ne _ _)
    · rw [literal_set hempty, literal_dict, List.cons_append, List.cons_append,
        List.append_assoc, List.append_assoc] at h
      exact absurd (List.tail_eq_of_cons_eq h)
        (separated_ne hempty hitems (floatsFinite_dict.mp hb) (.inl hread) r r')
  | _ => cases hopening

end Containers

theorem readable_dict {entries : List (Value × Value)}
    (hentries : ∀ e ∈ entries, e.1.FloatsFinite ∧ e.2.FloatsFinite)
    (hread : ∀ e ∈ entries,
      Readable literal FloatsFinite e.1 ∧ Readable literal FloatsFinite e.2) :
    Readable literal FloatsFinite (.dict entries) := by
  intro b r r' hb hr hr' h
  have hopening := opening_eq (floatsFinite_dict.mpr hentries) hb h
  cases b with
  | set elements =>
    by_cases hempty : elements = []
    · rw [hempty, literal_dict] at h
      exact absurd h.symm (call_append_ne _ _)
    · rw [literal_set hempty, literal_dict, List.cons_append, List.cons_append,
        List.append_assoc, List.append_assoc] at h
      exact absurd (List.tail_eq_of_cons_eq h.symm)
        (separated_ne hempty (floatsFinite_set.mp hb) hentries
          (.inr fun e he => (hread e he).1) r' r)
  | dict entries' =>
    rw [literal_dict, literal_dict, List.cons_append, List.cons_append, List.append_assoc,
      List.append_assoc] at h
    obtain ⟨rfl, hrest⟩ := separated_append_inj (fun _ => opens_entry)
      (fun e he => ⟨hentries e he, readable_entry (hread e he).1 (hread e he).2⟩) entries' _ _
      (floatsFinite_dict.mp hb) (closes_brace r) (closes_brace r')
      (List.tail_eq_of_cons_eq h)
    exact ⟨rfl, List.tail_eq_of_cons_eq hrest⟩
  | _ => cases hopening

/-- The literal of a value tells the value and where it ends. -/
theorem readable_literal {v : Value} (h : v.FloatsFinite) : Readable literal FloatsFinite v := by
  induction v using Value.induction with
  | int i => exact readable_int i
  | float x => exact readable_float (floatsFinite_float.mp h)
  | bool b => exact readable_bool b
  | str s => exact readable_str s
  | list items ih =>
    have hitems := floatsFinite_list.mp h
    exact readable_list hitems fun v hv => ih v hv (hitems v hv)
  | tuple items ih =>
    have hitems := floatsFinite_tuple.mp h
    exact readable_tuple hitems fun v hv => ih v hv (hitems v hv)
  | set elements ih =>
    have helements := floatsFinite_set.mp h
    exact readable_set helements fun v hv => ih v hv (helements v hv)
  | dict entries ih =>
    have hentries := floatsFinite_dict.mp h
    exact readable_dict hentries fun e he =>
      ⟨(ih e he).1 (hentries e he).1, (ih e he).2 (hentries e he).2⟩

end Divergence.Value
