/-
# `Divergence.Proofs.TypeTokens` — every type has tokens that are read as it

A shape is written with its keyword and, in parentheses after it, what it is made
of (`token`).  Its other tokens (`Spelled`) have blanks around keywords and around
types, but never in an alphabet, where a blank is a character like any other.  All
of these are read as the shape, if its set elements and keys are hashable and its
alphabets have neither repetitions nor parentheses.

Closing parentheses may be missing at the end as well.  A token is trimmed then
where an alphabet ended, so no alphabet may end in a blank.  This is why the
induction counts the parentheses that are missing: as long as there are none, an
alphabet may end as it likes (`Spelled.read_eq_ok`).
-/
import Divergence.Proofs.Closers
import Divergence.Proofs.Results
import Divergence.Shape.Reader

namespace Divergence

open Divergence.Text

theorem Kind.ofLabel?_label (kind : Kind) : Kind.ofLabel? kind.label.toList = some kind := by
  cases kind <;> decide

/-- A keyword has no blanks in it, and nothing that separates. -/
theorem Kind.label_exposed (kind : Kind) :
    (∀ d ∈ ['(', ')', ':'], d ∉ kind.label.toList) ∧
      (∀ c ∈ kind.label.toList, isBlank c = false) ∧ kind.label.toList ≠ [] := by
  cases kind <;> simp [Kind.label, isBlank]

namespace Shape

variable {kind : Kind} {inner s : List Char}

/-! ## Writing shapes -/

/-- A keyword and, in parentheses, what it is applied to. -/
def groupText (kind : Kind) (inner : List Char) : List Char :=
  kind.label.toList ++ '(' :: (inner ++ [')'])

/-- The token of a shape, without blanks. -/
def token : Shape → List Char
  | .int => Kind.int.label.toList
  | .float => Kind.float.label.toList
  | .bool => Kind.bool.label.toList
  | .str alphabet => groupText .str alphabet
  | .list element => groupText .list element.token
  | .tuple element => groupText .tuple element.token
  | .set element => groupText .set element.token
  | .dict key value => groupText .dict (key.token ++ ':' :: value.token)

/-- A keyword and, in parentheses, what it is applied to, with blanks around the keyword and
around the whole. -/
def GroupText (kind : Kind) (inner s : List Char) : Prop :=
  ∃ word, Padded kind.label.toList word ∧ Padded (word ++ '(' :: (inner ++ [')'])) s

/-- The tokens of a shape: blanks may stand around keywords and types. -/
def Spelled : Shape → List Char → Prop
  | .int, s => Padded Kind.int.label.toList s
  | .float, s => Padded Kind.float.label.toList s
  | .bool, s => Padded Kind.bool.label.toList s
  | .str alphabet, s => GroupText .str alphabet s
  | .list element, s => ∃ inner, element.Spelled inner ∧ GroupText .list inner s
  | .tuple element, s => ∃ inner, element.Spelled inner ∧ GroupText .tuple inner s
  | .set element, s => ∃ inner, element.Spelled inner ∧ GroupText .set inner s
  | .dict key value, s =>
    ∃ k v, key.Spelled k ∧ value.Spelled v ∧ GroupText .dict (k ++ ':' :: v) s

theorem groupText_self (kind : Kind) (inner : List Char) :
    GroupText kind inner (groupText kind inner) :=
  ⟨_, padded_self _, padded_self _⟩

theorem spelled_token (e : Shape) : e.Spelled e.token := by
  induction e with
  | int | float | bool => exact padded_self _
  | str alphabet => exact groupText_self .str alphabet
  | list element ih => exact ⟨_, ih, groupText_self .list _⟩
  | tuple element ih => exact ⟨_, ih, groupText_self .tuple _⟩
  | set element ih => exact ⟨_, ih, groupText_self .set _⟩
  | dict key value ihk ihv => exact ⟨_, _, ihk, ihv, groupText_self .dict _⟩

/-! ## Shapes with tokens -/

/-- The alphabets of the strings in a shape. -/
def alphabets : Shape → List (List Char)
  | .int | .float | .bool => []
  | .str alphabet => [alphabet]
  | .list element | .tuple element | .set element => element.alphabets
  | .dict key value => key.alphabets ++ value.alphabets

/-- Set elements and dictionary keys are hashable, all through the shape. -/
def Hashed : Shape → Prop
  | .int | .float | .bool | .str _ => True
  | .list element | .tuple element => element.Hashed
  | .set element => element.Hashed ∧ element.hashable
  | .dict key value => key.Hashed ∧ value.Hashed ∧ key.hashable

/-- An alphabet that a token can list. -/
def Listable (alphabet : List Char) : Prop :=
  alphabet.Nodup ∧ '(' ∉ alphabet ∧ ')' ∉ alphabet

/-- An alphabet that trimming does not make shorter at its end. -/
def EndsFirm (alphabet : List Char) : Prop :=
  ∀ c, alphabet.getLast? = some c → isBlank c = false

/-! ## Keywords and groups -/

theorem whole_of_keyword (h : Padded kind.label.toList s) : Whole s := by
  obtain ⟨hnone, hblank, hne⟩ := kind.label_exposed
  obtain ⟨c, hc⟩ := List.exists_mem_of_ne_nil _ hne
  refine (whole_of_not_mem hnone ⟨c, hc, hblank c hc, ?_⟩).padded h
  rintro rfl
  exact hnone ')' (by decide) hc

theorem not_mem_keyword (h : Padded kind.label.toList s) :
    ∀ d ∈ ['(', ')', ':'], d ∉ s := by
  intro d hd
  have hblank : ∀ d ∈ ['(', ')', ':'], isBlank d = false := by simp [isBlank]
  exact h.not_mem (hblank d hd) (kind.label_exposed.1 d hd)

theorem trim_keyword (h : Padded kind.label.toList s) : trim s = kind.label.toList := by
  rw [h.trim_eq, trim_eq_self kind.label_exposed.2.1]

theorem GroupText.whole (h : GroupText kind inner s) (hinner : Balanced inner) : Whole s := by
  obtain ⟨word, hword, hs⟩ := h
  exact ((whole_of_keyword hword).group hinner).padded hs

theorem balanced_of_listable {alphabet : List Char} (h : Listable alphabet) :
    Balanced alphabet :=
  balanced_of_forall_ne fun _ hc =>
    ⟨fun heq => h.2.1 (heq ▸ hc), fun heq => h.2.2 (heq ▸ hc)⟩

/-- The tokens of a shape close what they open, and show no colon. -/
theorem Spelled.whole {e : Shape} (h : e.Spelled s) (he : ∀ a ∈ e.alphabets, Listable a) :
    Whole s := by
  induction e generalizing s with
  | int | float | bool => exact whole_of_keyword h
  | str alphabet => exact h.whole (balanced_of_listable (he alphabet List.mem_cons_self))
  | list element ih | tuple element ih | set element ih =>
    obtain ⟨inner, hinner, hgroup⟩ := h
    exact hgroup.whole (ih hinner he).balanced
  | dict key value ihk ihv =>
    obtain ⟨k, v, hk, hv, hgroup⟩ := h
    obtain ⟨hkey, hvalue⟩ := List.forall_mem_append.mp he
    exact hgroup.whole ((ihk hk hkey).balanced_pair (ihv hv hvalue))

/-! ## Reading tokens -/

section Reading

variable {token : List Char}

/-- The reading of a token with a group, without the proofs that what is inside is shorter. -/
theorem readTrimmed_eq (h : '(' ∈ token) :
    readTrimmed token =
      match Kind.ofLabel? (trim (beforeOpen token)) with
      | some .str => .ok (.str (alphabet ((fromOpen token).drop 1)))
      | some .list => body token >>= fun inner => (read inner).map .list
      | some .tuple => body token >>= fun inner => (read inner).map .tuple
      | some .set => do
        let inner ← body token
        let element ← read inner
        let element ← requireHashable .set element
        return .set element
      | some .dict => do
        let inner ← body token
        let (k, v) ← halves token inner
        let key ← read k
        let key ← requireHashable .dict key
        let value ← read v
        return .dict key value
      | _ =>
        .error (if (trim (beforeOpen token)).isEmpty then malformed token .noTypeName
          else unknown token) := by
  rw [readTrimmed, if_neg (not_not.mpr h)]
  dsimp only
  cases Kind.ofLabel? (trim (beforeOpen token)) with
  | none => rfl
  | some kind =>
    cases kind with
    | int | float | bool | str => rfl
    | list | tuple | set =>
      dsimp only
      split
      · next e he => rw [he]; rfl
      · next inner hinner => rw [hinner]; rfl
    | dict =>
      dsimp only
      split
      · next e he => rw [he]; rfl
      · next inner hinner =>
        rw [hinner]
        split
        · next e he =>
          show _ = halves token inner >>= _
          rw [he]; rfl
        · next k v hhalves =>
          show _ = halves token inner >>= _
          rw [hhalves]; rfl

/-- The token is a keyword with a group after it. -/
structure Opens (token : List Char) (kind : Kind) : Prop where
  paren : '(' ∈ token
  keyword : Kind.ofLabel? (trim (beforeOpen token)) = some kind

variable {element key value : Shape} {k v : List Char}

theorem readTrimmed_str (h : Opens token .str) :
    readTrimmed token = .ok (.str (alphabet ((fromOpen token).drop 1))) := by
  rw [readTrimmed_eq h.paren, h.keyword]

theorem readTrimmed_list (h : Opens token .list) (hbody : body token = .ok inner)
    (hread : read inner = .ok element) : readTrimmed token = .ok (.list element) := by
  rw [readTrimmed_eq h.paren, h.keyword]
  simp only [hbody, hread, bind, Except.bind, Except.map]

theorem readTrimmed_tuple (h : Opens token .tuple) (hbody : body token = .ok inner)
    (hread : read inner = .ok element) : readTrimmed token = .ok (.tuple element) := by
  rw [readTrimmed_eq h.paren, h.keyword]
  simp only [hbody, hread, bind, Except.bind, Except.map]

theorem readTrimmed_set (h : Opens token .set) (hbody : body token = .ok inner)
    (hread : read inner = .ok element) (hhashable : element.hashable = true) :
    readTrimmed token = .ok (.set element) := by
  rw [readTrimmed_eq h.paren, h.keyword]
  simp only [hbody, hread, requireHashable, hhashable, if_true, bind, Except.bind]
  rfl

theorem readTrimmed_dict (h : Opens token .dict) (hbody : body token = .ok inner)
    (hhalves : halves token inner = .ok (k, v)) (hkey : read k = .ok key)
    (hvalue : read v = .ok value) (hhashable : key.hashable = true) :
    readTrimmed token = .ok (.dict key value) := by
  rw [readTrimmed_eq h.paren, h.keyword]
  simp only [hbody, hhalves, hkey, hvalue, requireHashable, hhashable, if_true, bind, Except.bind]
  rfl

end Reading

/-! ## Reading what was written -/

section Written

variable {k : Nat} {s' : List Char}

/-- What is left of a keyword and its group is still the keyword and the start of the group. -/
theorem GroupText.trim_dropClosers (h : GroupText kind inner s) (k : Nat) :
    ∃ word rest, Padded kind.label.toList word ∧
      trim (dropClosers k s) = trimStart word ++ '(' :: rest ∧
      (k = 0 ∧ rest = inner ++ [')'] ∨ ∃ j, k = j + 1 ∧ rest = trimEnd (dropClosers j inner)) := by
  obtain ⟨word, hword, hs⟩ := h
  have hblank := (whole_of_keyword hword).solid.allBlank_eq_false
  cases k with
  | zero => exact ⟨word, _, hword, trim_group hblank hs, .inl ⟨rfl, rfl⟩⟩
  | succ k => exact ⟨word, _, hword, trim_dropClosers_group hblank hs k, .inr ⟨k, rfl, rfl⟩⟩

theorem not_mem_trimStart_keyword {word : List Char} (h : Padded kind.label.toList word) :
    '(' ∉ trimStart word :=
  fun hmem => not_mem_keyword h '(' (by decide) ((padded_trimStart word).subset hmem)

theorem GroupText.opens (h : GroupText kind inner s) (k : Nat) :
    Opens (trim (dropClosers k s)) kind := by
  obtain ⟨word, rest, hword, htrim, -⟩ := h.trim_dropClosers k
  refine ⟨?_, ?_⟩
  · rw [htrim]
    exact List.mem_append_right _ List.mem_cons_self
  · rw [htrim, beforeOpen_append (not_mem_trimStart_keyword hword), trim_trimStart,
      trim_keyword hword, Kind.ofLabel?_label]

theorem GroupText.exists_body (h : GroupText kind inner s) (hinner : Balanced inner)
    (hsolid : Solid inner) (k : Nat) :
    ∃ y, body (trim (dropClosers k s)) = .ok y ∧ ShortenedBy k inner y := by
  obtain ⟨word, hword, hs⟩ := h
  obtain ⟨y, hy, hshort⟩ := splitGroup_shortenedBy (not_mem_keyword hword '(' (by decide))
    (whole_of_keyword hword).solid.allBlank_eq_false hinner hs k
  refine ⟨y, ?_, hshort⟩
  rw [body, hy]
  simp only [(hshort.shortened.solid hsolid).allBlank_eq_false, Bool.false_eq_true, if_false]

theorem read_keyword {e : Shape} (h : Padded kind.label.toList s)
    (he : readPrimitive kind.label.toList = .ok e) (hs' : trim s' = trim (dropClosers k s)) :
    read s' = .ok e := by
  have hclose := not_mem_keyword h ')' (by decide)
  rw [read, hs', Text.trim_dropClosers hclose, trim_keyword h, readTrimmed,
    if_pos (kind.label_exposed.1 '(' (by decide)), he]

/-- An alphabet is all that stands in the group of a string, unless its end was trimmed. -/
theorem read_str {a : List Char} (h : GroupText .str a s) (ha : Listable a)
    (hk : k = 0 ∨ EndsFirm a) (hs' : trim s' = trim (dropClosers k s)) :
    read s' = .ok (.str a) := by
  obtain ⟨hnodup, -, hclose⟩ := ha
  obtain ⟨word, rest, hword, htrim, hrest⟩ := h.trim_dropClosers k
  have hcontent : dropFinal ')' rest = a := by
    rcases hrest with ⟨-, rfl⟩ | ⟨j, rfl, rfl⟩
    · rw [dropFinal, List.getLast?_concat, if_pos rfl, List.dropLast_concat]
    · have hfirm : EndsFirm a := hk.resolve_left (Nat.succ_ne_zero j)
      rw [trimEnd_dropClosers hclose, trimEnd_eq_self hfirm, dropFinal_of_not_mem hclose]
  rw [read, hs', readTrimmed_str (h.opens k), htrim,
    fromOpen_append (not_mem_trimStart_keyword hword), List.drop_succ_cons, List.drop_zero,
    alphabet, hcontent, distinctBy_eq_self]
  exact hnodup.imp fun hne => by simpa using hne

/-- The element of a container is found in its group, with nothing missing at its end unless
something is missing from the whole. -/
theorem GroupText.exists_element {element : Shape} (h : GroupText kind inner s)
    (hinner : element.Spelled inner) (helement : ∀ a ∈ element.alphabets, Listable a)
    (hs' : trim s' = trim (dropClosers k s)) :
    ∃ y j, Opens (trim s') kind ∧ body (trim s') = .ok y ∧ (k = 0 → j = 0) ∧
      trim y = trim (dropClosers j inner) := by
  have hwhole := hinner.whole helement
  obtain ⟨y, hbody, hshort⟩ := h.exists_body hwhole.balanced hwhole.solid k
  obtain ⟨j, hj, hy⟩ := hshort.trim_eq
  exact ⟨y, j, hs' ▸ h.opens k, hs' ▸ hbody, fun h0 => Nat.le_zero.mp (h0 ▸ hj), hy⟩

/-- The key and the value of a dictionary are found in its group.  What is missing at the end of
the group is missing at the end of the value. -/
theorem GroupText.exists_halves {key value : Shape} {kt vt : List Char}
    (h : GroupText kind (kt ++ ':' :: vt) s) (hkey : key.Spelled kt) (hvalue : value.Spelled vt)
    (hkeys : ∀ a ∈ key.alphabets, Listable a) (hvalues : ∀ a ∈ value.alphabets, Listable a)
    (hs' : trim s' = trim (dropClosers k s)) :
    ∃ y v j, Opens (trim s') kind ∧ body (trim s') = .ok y ∧
      halves (trim s') y = .ok (kt, v) ∧ (k = 0 → j = 0) ∧ trim v = trim (dropClosers j vt) := by
  have hkwhole := hkey.whole hkeys
  have hvwhole := hvalue.whole hvalues
  have hsolid : Solid (kt ++ ':' :: vt) := ⟨':', by simp, by decide, by decide⟩
  obtain ⟨y, hbody, hshort⟩ := h.exists_body (hkwhole.balanced_pair hvwhole) hsolid k
  obtain ⟨v, hsplit, hshort'⟩ := splitTopLevel_shortenedBy hkwhole hvwhole.solid hshort
  obtain ⟨j, hj, hv⟩ := hshort'.trim_eq
  refine ⟨y, v, j, hs' ▸ h.opens k, hs' ▸ hbody, ?_, fun h0 => Nat.le_zero.mp (h0 ▸ hj), hv⟩
  rw [halves, hsplit]
  simp only [hkwhole.solid.allBlank_eq_false,
    (hshort'.shortened.solid hvwhole.solid).allBlank_eq_false, Bool.or_self, Bool.false_eq_true,
    if_false]

/-- A token of a shape is read as the shape.  So is what is left of it when closing parentheses
are missing, unless that cuts into an alphabet. -/
theorem Spelled.read_eq_ok {e : Shape} (h : e.Spelled s) (hhashed : e.Hashed)
    (he : ∀ a ∈ e.alphabets, Listable a) (hk : k = 0 ∨ ∀ a ∈ e.alphabets, EndsFirm a)
    (hs' : trim s' = trim (dropClosers k s)) : read s' = .ok e := by
  induction e generalizing s k s' with
  | int | float | bool => exact read_keyword h rfl hs'
  | str a =>
    have ha : a ∈ (Shape.str a).alphabets := List.mem_cons_self
    exact read_str h (he a ha) (hk.imp_right fun hfirm => hfirm a ha) hs'
  | list element ih =>
    obtain ⟨inner, hinner, hgroup⟩ := h
    obtain ⟨y, j, hopens, hbody, hj, hy⟩ := hgroup.exists_element hinner he hs'
    have helement := ih hinner hhashed he (hk.imp_left hj) hy
    exact readTrimmed_list hopens hbody helement
  | tuple element ih =>
    obtain ⟨inner, hinner, hgroup⟩ := h
    obtain ⟨y, j, hopens, hbody, hj, hy⟩ := hgroup.exists_element hinner he hs'
    have helement := ih hinner hhashed he (hk.imp_left hj) hy
    exact readTrimmed_tuple hopens hbody helement
  | set element ih =>
    obtain ⟨inner, hinner, hgroup⟩ := h
    obtain ⟨hhashed, hhashable⟩ := hhashed
    obtain ⟨y, j, hopens, hbody, hj, hy⟩ := hgroup.exists_element hinner he hs'
    have helement := ih hinner hhashed he (hk.imp_left hj) hy
    exact readTrimmed_set hopens hbody helement hhashable
  | dict key value ihk ihv =>
    obtain ⟨kt, vt, hkt, hvt, hgroup⟩ := h
    obtain ⟨hkeyHashed, hvalueHashed, hhashable⟩ := hhashed
    obtain ⟨hkeys, hvalues⟩ := List.forall_mem_append.mp he
    obtain ⟨y, v, j, hopens, hbody, hhalves, hj, hv⟩ :=
      hgroup.exists_halves hkt hvt hkeys hvalues hs'
    -- the key has the colon after it, so nothing is missing there
    have hkey : read kt = .ok key := ihk (k := 0) hkt hkeyHashed hkeys (.inl rfl) rfl
    have hvalue : read v = .ok value :=
      ihv hvt hvalueHashed hvalues
        (hk.imp hj fun hfirm => (List.forall_mem_append.mp hfirm).2) hv
    exact readTrimmed_dict hopens hbody hhalves hkey hvalue hhashable

end Written

/-- Every shape with hashable elements and keys, and with alphabets without repetitions and
parentheses, is read from its token and from all its other tokens, with blanks around keywords
and types.  If no alphabet ends in a blank, closing parentheses may be missing at the end. -/
theorem read_token (e : Shape) (hhashed : e.Hashed) (he : ∀ a ∈ e.alphabets, Listable a) :
    read e.token = .ok e ∧
    (∀ s, e.Spelled s → read s = .ok e) ∧
    ((∀ a ∈ e.alphabets, EndsFirm a) →
      ∀ s s' k, e.Spelled s → Padded (dropClosers k s) s' → read s' = .ok e) := by
  have hread (s : List Char) (hs : e.Spelled s) : read s = .ok e :=
    hs.read_eq_ok (k := 0) hhashed he (.inl rfl) rfl
  refine ⟨hread _ e.spelled_token, hread, fun hfirm s s' k hs hs' => ?_⟩
  exact hs.read_eq_ok hhashed he (.inr hfirm) hs'.trim_eq

/-- Dictionaries whose keys are built from colons and blanks. -/
def colons : Shape :=
  .dict (.tuple (.str [':', ' ', 'b'])) (.set (.str ['x']))

theorem read_token_colons :
    colons.Hashed ∧ (∀ a ∈ colons.alphabets, Listable a) ∧ (∀ a ∈ colons.alphabets, EndsFirm a) ∧
    read "dict(tuple(str(: b)):set(str(x)))".toList = .ok colons ∧
    read "\tdict (tuple(str(: b) ): set(str(x ".toList = .ok colons := by
  have hhashed : colons.Hashed := ⟨trivial, ⟨trivial, rfl⟩, rfl⟩
  have hlistable : ∀ a ∈ colons.alphabets, Listable a := by
    simp [colons, alphabets, Listable]
  have hfirm : ∀ a ∈ colons.alphabets, EndsFirm a := by
    simp [colons, alphabets, EndsFirm, isBlank]
  obtain ⟨htoken, -, hdropped⟩ := read_token colons hhashed hlistable
  have hspelled : colons.Spelled "\tdict (tuple(str(: b) ): set(str(x)))".toList := by
    refine ⟨"tuple(str(: b) )".toList, " set(str(x))".toList, ?_, ?_, ?_⟩
    · exact ⟨"str(: b) ".toList, ⟨_, padded_self _, [], [' '], rfl, rfl, rfl⟩, _, padded_self _,
        padded_self _⟩
    · exact ⟨"str(x)".toList, groupText_self .str ['x'], _, padded_self _, [' '], [], rfl, rfl,
        rfl⟩
    · exact ⟨"dict ".toList, ⟨[], [' '], rfl, rfl, rfl⟩, ['\t'], [], rfl, rfl, rfl⟩
  refine ⟨hhashed, hlistable, hfirm, htoken, hdropped hfirm _ _ 3 hspelled ?_⟩
  exact ⟨[], [' '], rfl, rfl, by decide⟩

end Shape

end Divergence
