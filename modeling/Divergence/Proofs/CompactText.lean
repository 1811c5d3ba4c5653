/-
# `Divergence.Proofs.CompactText` — compact text is read as what was written

The compact text of a document is read as that document, if nothing of it was lost when it
was written: string literals must have a text, and numbers must be 64-bit integers
(`Definite`).

Documents stand inside one another, so each is read from a text that goes on after it.
Only a number could be taken to go on, too, and what comes after a value, a comma or a
bracket that closes, is no part of a number (`Follows`).  The reader's fuel is bounded by
the length of the text, and every call that spends some leaves a shorter text to read.
The induction is on the document; for the items of an array and the members of an object
there is an induction on the list inside of it.
-/
import Divergence.Json.Reader
import Divergence.Json.Writer
import Divergence.Proofs.FloatText

namespace Divergence.Json

open Divergence.Text

variable {rest : List Char}

/-! ## String literals -/

/-- The pieces of a literal that starts with a given one. -/
def startWith (piece : Piece) (scanned : List Piece × List Char) : List Piece × List Char :=
  (piece :: scanned.1, scanned.2)

theorem stringPieces_short {e c : Char} (he : e ≠ 'u') (h : shortEscape? e = some c)
    (rest : List Char) :
    stringPieces ('\\' :: e :: rest) = (stringPieces rest).map (startWith (.char c)) := by
  rw [stringPieces, h]
  · cases stringPieces rest <;> rfl
  · intro _ _ _ _ _ heq _
    exact he heq

theorem stringPieces_unit {a b c d : Char} {n : Nat} (h : hex4? a b c d = some n)
    (rest : List Char) :
    stringPieces ('\\' :: 'u' :: a :: b :: c :: d :: rest) =
      (stringPieces rest).map (startWith (.ofUnit n)) := by
  rw [stringPieces, h]
  cases stringPieces rest <;> rfl

theorem stringPieces_plain {c : Char} (hquote : c ≠ '"') (hbackslash : c ≠ '\\')
    (hcontrol : ¬ c.toNat < 0x20) (rest : List Char) :
    stringPieces (c :: rest) = (stringPieces rest).map (startWith (.char c)) := by
  rw [stringPieces, if_neg hcontrol]
  · cases stringPieces rest <;> rfl
  · exact hquote
  · intro _ _ _ _ _ heq _
    exact hbackslash heq
  · intro _ _ heq _
    exact hbackslash heq

theorem hexDigit?_hexDigit : ∀ n < 16, hexDigit? (hexDigit n) = some n := by
  decide

/-- A control character has two digits of its own in its escape. -/
theorem hex4?_hexDigit {n : Nat} (h : n < 0x20) :
    hex4? '0' '0' (hexDigit (n / 16)) (hexDigit (n % 16)) = some n := by
  have hzero : hexDigit? '0' = some 0 := rfl
  simp only [hex4?, hzero, hexDigit?_hexDigit (n / 16) (by omega),
    hexDigit?_hexDigit (n % 16) (by omega), bind, Option.bind_some, Option.some.injEq]
  omega

theorem Piece.ofUnit_toNat {c : Char} (h : c.toNat < 0x20) : Piece.ofUnit c.toNat = .char c := by
  rw [Piece.ofUnit, if_neg (by simp; omega), if_neg (by simp; omega), Char.ofNat_toNat]

/-- A character is one piece of a string literal, however it is written. -/
theorem stringPieces_escape (c : Char) (rest : List Char) :
    stringPieces (escape c ++ rest) = (stringPieces rest).map (startWith (.char c)) := by
  unfold escape
  split
  · next h => subst h; exact stringPieces_short (by decide) rfl rest
  split
  · next h => subst h; exact stringPieces_short (by decide) rfl rest
  split
  · next h => subst h; exact stringPieces_short (by decide) rfl rest
  split
  · next h => subst h; exact stringPieces_short (by decide) rfl rest
  split
  · next h => subst h; exact stringPieces_short (by decide) rfl rest
  split
  · next h => subst h; exact stringPieces_short (by decide) rfl rest
  split
  · next h => subst h; exact stringPieces_short (by decide) rfl rest
  split
  · next hcontrol =>
    rw [← Piece.ofUnit_toNat hcontrol]
    exact stringPieces_unit (hex4?_hexDigit hcontrol) rest
  · next hquote hbackslash _ _ _ _ _ hcontrol =>
    exact stringPieces_plain hquote hbackslash hcontrol rest

theorem stringPieces_quoted (cs rest : List Char) :
    stringPieces (cs.flatMap escape ++ '"' :: rest) = some (cs.map .char, rest) := by
  induction cs with
  | nil => rfl
  | cons c cs ih =>
    rw [List.flatMap_cons, List.append_assoc, stringPieces_escape, ih]
    rfl

theorem joinPieces_chars (cs : List Char) : joinPieces (cs.map .char) = some cs := by
  induction cs with
  | nil => rfl
  | cons c cs ih => rw [List.map_cons, joinPieces, ih, Option.map_some]

/-- A string literal is read as the string that was written. -/
theorem stringAfterQuote_quoted (s : String) (rest : List Char) :
    stringAfterQuote (s.toList.flatMap escape ++ '"' :: rest) = some (some s, rest) := by
  simp only [stringAfterQuote, stringPieces_quoted, Option.map_some, joinPieces_chars,
    String.ofList_toList]

/-! ## Numbers -/

/-- What may come after a number: nothing that would be part of it. -/
def Follows (rest : List Char) : Prop :=
  ∀ c ∈ rest.head?, c.isDigit = false ∧ c ≠ '.' ∧ c ≠ 'e' ∧ c ≠ 'E'

theorem head?_ofNat_ne_zero {n : Nat} (h : 0 < n) : (Text.ofNat n).head? ≠ some '0' := by
  induction n using Nat.strongRecOn with
  | ind n ih =>
    by_cases hsmall : n < 10
    · have hdigit : ∀ n < 10, 0 < n → [n.digitChar].head? ≠ some '0' := by decide
      rw [Text.ofNat, Nat.toDigits_of_lt_base hsmall]
      exact hdigit n hsmall h
    · have hlarge : 10 ≤ n := Nat.not_lt.mp hsmall
      rw [Text.ofNat, Nat.toDigits_of_base_le (by decide) hlarge,
        List.head?_append_of_ne_nil _ Nat.toDigits_ne_nil]
      exact ih (n / 10) (Nat.div_lt_self h (by decide)) (Nat.div_pos hlarge (by decide))

/-- Numbers are written without zeros before their digits. -/
theorem not_padded_ofNat (n : Nat) :
    ((Text.ofNat n).head? = some '0' && 1 < (Text.ofNat n).length) = false := by
  rcases Nat.eq_zero_or_pos n with rfl | hpos
  · rfl
  · simp [head?_ofNat_ne_zero hpos]

theorem Follows.stops (h : Follows rest) : Binary64.Stops rest :=
  fun c hc => (h c hc).1

theorem someDigits_ofNat (n : Nat) (h : Follows rest) :
    someDigits (Text.ofNat n ++ rest) = some (Text.ofNat n, rest) := by
  have hdigits := Binary64.digits_ofNat n
  simp only [someDigits, Binary64.takeWhile_run hdigits h.stops,
    Binary64.dropWhile_run hdigits h.stops]
  rw [if_neg (by simp [Text.ofNat])]

theorem fractionPart_of_follows (h : Follows rest) : fractionPart rest = some (none, rest) := by
  cases rest with
  | nil => rfl
  | cons c rest =>
    rw [fractionPart]
    intro _ heq
    exact (h c rfl).2.1 (List.cons.inj heq).1

theorem exponentPart_of_follows (h : Follows rest) : exponentPart rest = some (none, rest) := by
  cases rest with
  | nil => rfl
  | cons c rest =>
    obtain ⟨-, -, hlower, hupper⟩ := h c rfl
    simp [exponentPart, hlower, hupper]

theorem ofNat_append_ne_minus (n : Nat) (s t : List Char) : Text.ofNat n ++ s ≠ '-' :: t := by
  intro heq
  obtain ⟨c, cs, hcs⟩ := List.exists_cons_of_ne_nil (Nat.toDigits_ne_nil (n := n) (b := 10))
  have hdigit := Binary64.digits_ofNat n c (by rw [Text.ofNat, hcs]; exact List.mem_cons_self)
  rw [Text.ofNat, hcs] at heq
  rw [(List.cons.inj heq).1] at hdigit
  exact absurd hdigit (by decide)

/-- Digits, with or without a minus sign, are read as the literal that they make. -/
theorem numberAtStart_digits (n : Nat) (h : Follows rest) :
    numberAtStart (Text.ofNat n ++ rest) =
        some (Literal.number ⟨false, Text.ofNat n, none, none⟩, rest) ∧
      numberAtStart ('-' :: (Text.ofNat n ++ rest)) =
        some (Literal.number ⟨true, Text.ofNat n, none, none⟩, rest) := by
  constructor
  · unfold numberAtStart
    split
    next negative s heq =>
    split at heq
    · next hminus => exact absurd hminus (ofNat_append_ne_minus n rest _)
    · cases heq
      simp only [someDigits_ofNat n h, bind, Option.bind_some, not_padded_ofNat,
        Bool.false_eq_true, if_false, fractionPart_of_follows h, exponentPart_of_follows h]
  · simp only [numberAtStart, someDigits_ofNat n h, bind, Option.bind_some, not_padded_ofNat,
      Bool.false_eq_true, if_false, fractionPart_of_follows h, exponentPart_of_follows h]

theorem number_unsigned {n : Nat} (h : n < wordRange) :
    Literal.number ⟨false, Text.ofNat n, none, none⟩ = .integer n := by
  simp [Literal.number, Text.ofNat, Nat.ofDigitChars_ten_toDigits, h]

theorem number_signed {n : Nat} (hpos : 0 < n) (h : n ≤ 0x8000000000000000) :
    Literal.number ⟨true, Text.ofNat n, none, none⟩ = .integer (-n) := by
  simp [Literal.number, Text.ofNat, Nat.ofDigitChars_ten_toDigits, Nat.ne_of_gt hpos, h]

/-- A 64-bit integer, signed or unsigned, is read as itself. -/
theorem numberAtStart_ofInt {i : Int} (hlow : -0x8000000000000000 ≤ i)
    (hhigh : i < 0x10000000000000000) (h : Follows rest) :
    numberAtStart (ofInt i ++ rest) = some (.integer i, rest) := by
  obtain ⟨hunsigned, hsigned⟩ := numberAtStart_digits i.natAbs h
  unfold ofInt
  split
  · next hneg =>
    have hvalue : -(i.natAbs : Int) = i := by omega
    rw [List.cons_append, hsigned, number_signed (by omega) (by omega), hvalue]
  · next hnonneg =>
    have hvalue : (i.natAbs : Int) = i := by omega
    rw [hunsigned, number_unsigned (by rw [wordRange]; omega), hvalue]

/-! ## Documents -/

/-- Every string literal of a document has a text, and every number is a 64-bit integer, signed
or unsigned.  Such a document is written without loss. -/
inductive Definite : Json → Prop
  | null : Definite .null
  | bool (b : Bool) : Definite (.bool b)
  | integer {i : Int} : -0x8000000000000000 ≤ i → i < 0x10000000000000000 →
      Definite (.number (.integer i))
  | string (s : String) : Definite (.string (some s))
  | array {items : List Json} : (∀ item ∈ items, Definite item) → Definite (.array items)
  | object {members : List (Option String × Json)} : (∀ m ∈ members, m.1.isSome = true) →
      (∀ m ∈ members, Definite m.2) → Definite (.object members)

/-- The characters that other documents than numbers, blanks and the ends of arrays start
with. -/
def openers : List Char :=
  ['"', '[', '\x7b', 'n', 't', 'f', ' ', '\t', '\n', '\r', ']']

theorem ofInt_cons (i : Int) : ∃ c s, ofInt i = c :: s ∧ c ∉ openers := by
  have hopeners : ∀ c ∈ openers, c ≠ '-' ∧ c.isDigit = false := by
    simp [openers, Char.isDigit]
  unfold ofInt
  split
  · exact ⟨_, _, rfl, fun hc => (hopeners _ hc).1 rfl⟩
  · obtain ⟨c, s, hs⟩ := List.exists_cons_of_ne_nil (Nat.toDigits_ne_nil (n := i.natAbs) (b := 10))
    have hdigit : c.isDigit = true :=
      Binary64.digits_ofNat i.natAbs c (by rw [Text.ofNat, hs]; exact List.mem_cons_self)
    refine ⟨c, s, hs, fun hc => ?_⟩
    rw [(hopeners c hc).2] at hdigit
    cases hdigit

theorem isSpace_eq_false {c : Char} (h : c ∉ openers) : isSpace c = false := by
  simp [openers] at h
  simp [isSpace, h]

/-- The text of a document starts with neither a blank nor a bracket that closes. -/
theorem compact_cons (j : Json) : ∃ c s, compact j = c :: s ∧ isSpace c = false ∧ c ≠ ']' := by
  cases j with
  | null => exact ⟨'n', _, rfl, by decide, by decide⟩
  | bool b => cases b with
    | false => exact ⟨'f', _, rfl, by decide, by decide⟩
    | true => exact ⟨'t', _, rfl, by decide, by decide⟩
  | number n => cases n with
    | integer i =>
      obtain ⟨c, s, hs, hc⟩ := ofInt_cons i
      refine ⟨c, s, hs, isSpace_eq_false hc, ?_⟩
      rintro rfl
      exact hc (by decide)
    | other inRange => exact ⟨'n', _, rfl, by decide, by decide⟩
  | string s => cases s with
    | none => exact ⟨'n', _, rfl, by decide, by decide⟩
    | some s => exact ⟨'"', _, rfl, by decide, by decide⟩
  | array items => exact ⟨'[', _, rfl, by decide, by decide⟩
  | object members => exact ⟨'\x7b', _, rfl, by decide, by decide⟩

theorem skip_cons {c : Char} (h : isSpace c = false) (s : List Char) : skip (c :: s) = c :: s := by
  rw [skip, List.dropWhile_cons_of_neg (by rw [h]; exact Bool.false_ne_true)]

variable {fuel : Nat}

/-- Nothing but a number starts like one. -/
theorem readValue_ofInt {i : Int} {result : Number × List Char}
    (h : numberAtStart (ofInt i ++ rest) = some result) :
    readValue (fuel + 1) (ofInt i ++ rest) = some (.number result.1, result.2) := by
  obtain ⟨c, s, hs, hc⟩ := ofInt_cons i
  rw [hs, List.cons_append] at h ⊢
  have hother : ∀ d ∈ openers, c ≠ d := by
    rintro d hd rfl
    exact hc hd
  rw [readValue, skip_cons (isSpace_eq_false hc)]
  split
  · next heq => exact absurd (List.cons.inj heq).1 (hother _ (by decide))
  · next heq => exact absurd (List.cons.inj heq).1 (hother _ (by decide))
  · next heq => exact absurd (List.cons.inj heq).1 (hother _ (by decide))
  · next heq => exact absurd (List.cons.inj heq).1 (hother _ (by decide))
  · next heq => exact absurd (List.cons.inj heq).1 (hother _ (by decide))
  · next heq => exact absurd (List.cons.inj heq).1 (hother _ (by decide))
  · rw [h, Option.map_some]

/-- A document is read from its text, whatever comes after it, if there is as much fuel as
characters. -/
def ReadBack (j : Json) : Prop :=
  ∀ fuel rest, (compact j).length ≤ fuel → Follows rest →
    readValue fuel (compact j ++ rest) = some (j, rest)

theorem follows_of_mem {c : Char} (hc : c ∈ [',', ']', '\x7d']) (s : List Char) :
    Follows (c :: s) := by
  have hclosers : ∀ c ∈ [',', ']', '\x7d'], c.isDigit = false ∧ c ≠ '.' ∧ c ≠ 'e' ∧ c ≠ 'E' := by
    simp [Char.isDigit]
  rintro d ⟨⟩
  exact hclosers c hc

theorem readBack_of_succ {j : Json}
    (h : ∀ fuel rest, (compact j).length ≤ fuel + 1 → Follows rest →
      readValue (fuel + 1) (compact j ++ rest) = some (j, rest)) : j.ReadBack := by
  intro fuel rest hfuel hrest
  cases fuel with
  | zero =>
    obtain ⟨c, s, hs, -⟩ := compact_cons j
    rw [hs] at hfuel
    cases hfuel
  | succ fuel => exact h fuel rest hfuel hrest

theorem readItems_compactItems {items : List Json} (hne : items ≠ [])
    (h : ∀ item ∈ items, item.ReadBack) (hfuel : (compactItems items).length ≤ fuel)
    (rest : List Char) :
    readItems fuel (compactItems items ++ rest) = some (items, rest) := by
  induction items generalizing fuel with
  | nil => exact absurd rfl hne
  | cons item items ih =>
    obtain ⟨hitem, hitems⟩ := List.forall_mem_cons.mp h
    cases fuel with
    | zero => cases items <;> simp [compactItems] at hfuel
    | succ fuel => cases items with
      | nil =>
        simp only [compactItems, List.length_append, List.length_singleton] at hfuel
        have hread := hitem fuel (']' :: rest) (by omega) (follows_of_mem (by decide) rest)
        simp only [compactItems, List.append_assoc, List.cons_append, List.nil_append, readItems,
          hread]
        rfl
      | cons next items =>
        simp only [compactItems, List.length_append, List.length_cons] at hfuel
        have hread := hitem fuel (',' :: (compactItems (next :: items) ++ rest)) (by omega)
          (follows_of_mem (by decide) _)
        have hrest : readItems fuel (compactItems (next :: items) ++ rest) =
            some (next :: items, rest) := ih (List.cons_ne_nil next items) hitems (by omega)
        simp only [compactItems, List.append_assoc, List.cons_append, readItems, hread]
        show (readItems fuel (compactItems (next :: items) ++ rest)).map _ = _
        rw [hrest]
        rfl

/-- A member is its name and its value; what comes next decides whether there are others. -/
theorem readMembers_member {name : String} {value : Json} {tail : List Char}
    (hread : readValue fuel (compact value ++ tail) = some (value, tail)) :
    readMembers (fuel + 1) (writeString (some name) ++ ':' :: (compact value ++ tail)) =
      match skip tail with
      | ',' :: rest =>
        (readMembers fuel rest).map fun (members, rest) => ((some name, value) :: members, rest)
      | '\x7d' :: rest => some ([(some name, value)], rest)
      | _ => none := by
  simp only [writeString, quote, List.append_assoc, List.cons_append, List.nil_append]
  show (stringAfterQuote (name.toList.flatMap escape ++ '"' :: ':' :: (compact value ++ tail)) >>=
    _) = _
  rw [stringAfterQuote_quoted]
  show (readValue fuel (compact value ++ tail) >>= _) = _
  rw [hread]
  rfl

theorem readMembers_compactMembers {members : List (Option String × Json)} (hne : members ≠ [])
    (hnames : ∀ m ∈ members, m.1.isSome = true) (h : ∀ m ∈ members, m.2.ReadBack)
    (hfuel : (compactMembers members).length ≤ fuel) (rest : List Char) :
    readMembers fuel (compactMembers members ++ rest) = some (members, rest) := by
  induction members generalizing fuel with
  | nil => exact absurd rfl hne
  | cons member members ih =>
    obtain ⟨name, value⟩ := member
    obtain ⟨hvalue, hvalues⟩ := List.forall_mem_cons.mp h
    obtain ⟨hname, hnames'⟩ := List.forall_mem_cons.mp hnames
    obtain ⟨name, rfl⟩ := Option.isSome_iff_exists.mp hname
    replace hvalue : value.ReadBack := hvalue
    cases fuel with
    | zero => cases members <;> simp [compactMembers] at hfuel
    | succ fuel => cases members with
      | nil =>
        simp only [compactMembers, List.length_append, List.length_cons] at hfuel
        have hread := hvalue fuel ('\x7d' :: rest) (by omega) (follows_of_mem (by decide) rest)
        simp only [compactMembers, List.append_assoc, List.cons_append, List.nil_append,
          readMembers_member hread]
        rfl
      | cons next members =>
        simp only [compactMembers, List.length_append, List.length_cons] at hfuel
        have hread := hvalue fuel (',' :: (compactMembers (next :: members) ++ rest)) (by omega)
          (follows_of_mem (by decide) _)
        have hrest : readMembers fuel (compactMembers (next :: members) ++ rest) =
            some (next :: members, rest) :=
          ih (List.cons_ne_nil next members) hnames' hvalues (by omega)
        simp only [compactMembers, List.append_assoc, List.cons_append, readMembers_member hread]
        show (readMembers fuel (compactMembers (next :: members) ++ rest)).map _ = _
        rw [hrest]
        rfl

theorem compactItems_cons (item : Json) (items : List Json) :
    ∃ c s, compactItems (item :: items) = c :: s ∧ isSpace c = false ∧ c ≠ ']' := by
  obtain ⟨c, s, hs, hc⟩ := compact_cons item
  cases items with
  | nil => exact ⟨c, s ++ [']'], by rw [compactItems, hs, List.cons_append], hc⟩
  | cons next items =>
    refine ⟨c, s ++ ',' :: compactItems (next :: items), ?_, hc⟩
    simp only [compactItems, hs, List.cons_append]

theorem compactMembers_cons (name : String) (value : Json)
    (members : List (Option String × Json)) :
    ∃ s, compactMembers ((some name, value) :: members) = '"' :: s := by
  cases members with
  | nil => exact ⟨_, rfl⟩
  | cons next members => exact ⟨_, rfl⟩

/-- What does not close an array at once is its first item. -/
theorem readValue_array {c : Char} (hspace : isSpace c = false) (hbracket : c ≠ ']')
    (s : List Char) :
    readValue (fuel + 1) ('[' :: c :: s) =
      (readItems fuel (c :: s)).map fun p => (.array p.1, p.2) := by
  have hopen : skip ('[' :: c :: s) = '[' :: c :: s := skip_cons (by decide) _
  simp [readValue, hopen, skip_cons hspace, hbracket]

theorem readValue_object (s : List Char) :
    readValue (fuel + 1) ('\x7b' :: '"' :: s) =
      (readMembers fuel ('"' :: s)).map fun p => (.object p.1, p.2) :=
  rfl

/-- An array is read as its items, and an object as its members, if these can be read. -/
theorem readBack_array {items : List Json} (h : ∀ item ∈ items, item.ReadBack) :
    ReadBack (.array items) := by
  refine readBack_of_succ fun fuel rest hfuel _ => ?_
  cases items with
  | nil => rfl
  | cons item items =>
    have hitems := readItems_compactItems (List.cons_ne_nil item items) h
      (Nat.le_of_succ_le_succ hfuel) rest
    obtain ⟨c, s, hs, hspace, hbracket⟩ := compactItems_cons item items
    rw [hs, List.cons_append] at hitems
    rw [compact, hs, List.cons_append, List.cons_append, readValue_array hspace hbracket, hitems,
      Option.map_some]

theorem readBack_object {members : List (Option String × Json)}
    (hnames : ∀ m ∈ members, m.1.isSome = true) (h : ∀ m ∈ members, m.2.ReadBack) :
    ReadBack (.object members) := by
  refine readBack_of_succ fun fuel rest hfuel _ => ?_
  cases members with
  | nil => rfl
  | cons member members =>
    have hmembers := readMembers_compactMembers (List.cons_ne_nil member members) hnames h
      (Nat.le_of_succ_le_succ hfuel) rest
    obtain ⟨name, value⟩ := member
    obtain ⟨name, rfl⟩ := Option.isSome_iff_exists.mp (hnames _ List.mem_cons_self)
    obtain ⟨s, hs⟩ := compactMembers_cons name value members
    rw [hs, List.cons_append] at hmembers
    rw [compact, hs, List.cons_append, List.cons_append, readValue_object, hmembers,
      Option.map_some]

theorem readBack_of_definite {j : Json} (h : j.Definite) : j.ReadBack := by
  induction h with
  | null => exact readBack_of_succ fun _ _ _ _ => rfl
  | bool b => cases b <;> exact readBack_of_succ fun _ _ _ _ => rfl
  | integer hlow hhigh =>
    exact readBack_of_succ fun _ _ _ hrest => readValue_ofInt (numberAtStart_ofInt hlow hhigh hrest)
  | string s =>
    refine readBack_of_succ fun fuel rest _ _ => ?_
    simp only [compact, writeString, quote, List.append_assoc, List.cons_append, List.nil_append]
    show (stringAfterQuote (s.toList.flatMap escape ++ '"' :: rest)).map _ = _
    rw [stringAfterQuote_quoted]
    rfl
  | array _ ih => exact readBack_array ih
  | object hnames _ ih => exact readBack_object hnames ih

/-- The document of a text that it was written as. -/
theorem read?_compact {j : Json} (h : j.Definite) : read? j.compact = some j := by
  have hread := readBack_of_definite h (2 * j.compact.length + 2) [] (by omega) (by simp [Follows])
  rw [List.append_nil] at hread
  rw [read?, hread]
  rfl

end Divergence.Json
