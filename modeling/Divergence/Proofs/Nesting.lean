/-
# `Divergence.Proofs.Nesting` — tokens inside the groups of containers

Around a token `t` of a type, `list(t)` should be the token of a list of that type.  The
end of an alphabet is found in two ways, though.  A token of a string type ends with its
alphabet, parentheses and all, except for one that closes it.  In a container it is the
parentheses of the whole token that are matched, whether or not they are in an alphabet.
So an alphabet with a parenthesis may get one more, or close the container too early.

The parenthesis that is added after `t` closes the innermost group that `t` leaves open
(`closesTo`).  If `t` ends in one as well and all the groups at its end are open, the last
of them an alphabet, then the alphabet ends in the parenthesis of `t` now (`withClose`).
Where that makes no difference `t` nests (`Nests`), and that is just when containers
around `t` are read as they should be.
-/
import Divergence.Proofs.TypeTokens
import Divergence.Proofs.Typing

namespace Divergence

open Divergence.Text

namespace Text

variable {s : List Char}

/-! ## Ends of texts -/

theorem trimStart_suffix_self (s : List Char) : trimStart s <:+ s :=
  List.dropWhile_suffix isBlank

theorem getLast?_trimStart (h : allBlank s = false) : (trimStart s).getLast? = s.getLast? := by
  obtain ⟨a, ha⟩ := trimStart_suffix_self s
  have hne : trimStart s ≠ [] := by
    rw [ne_eq, trimStart_eq_nil, h]
    exact Bool.false_ne_true
  rw [← ha, List.getLast?_append_of_ne_nil a hne, ha]

theorem depthAfter?_trimStart (depth : Nat) (s : List Char) :
    depthAfter? depth (trimStart s) = depthAfter? depth s := by
  have hblank : allBlank (s.takeWhile isBlank) = true :=
    allBlank_iff.mpr fun c hc => List.mem_takeWhile_imp hc
  have hsplit : s = s.takeWhile isBlank ++ trimStart s := (List.takeWhile_append_dropWhile).symm
  have hstay : depthAfter? depth (s.takeWhile isBlank) = some depth := by
    have hzero := depthAfter?_add (balanced_of_allBlank hblank) depth
    rwa [Nat.zero_add] at hzero
  conv_rhs => rw [hsplit, depthAfter?_append, hstay, Option.bind_some]

theorem trim_append_close (h : allBlank s = false) :
    trim (s ++ [')']) = trimStart s ++ [')'] := by
  rw [trim, trimStart_append h, trimEnd_append (by decide)]
  rfl

theorem getLast?_append_cons {c : Char} (hc : c ≠ ')') (s t : List Char) :
    (s ++ c :: t).getLast? = some ')' ↔ t.getLast? = some ')' := by
  cases t with
  | nil => simp [hc]
  | cons x t =>
    rw [List.append_cons, List.getLast?_append_of_ne_nil _ (List.cons_ne_nil x t)]

end Text

namespace Shape

variable {kind : Kind} {token inner s t : List Char} {depth : Nat}

theorem EndsFirm.trim_eq (h : EndsFirm s) : trim s = trimStart s := by
  cases hblank : allBlank s with
  | true =>
    rw [trim, trimStart_eq_nil.mpr hblank]
    rfl
  | false =>
    rw [trim, trimEnd_eq_self]
    intro c hc
    exact h c (getLast?_trimStart hblank ▸ hc)

/-! ## Groups of tokens -/

/-- The token is a keyword and a group that holds `inner`.  The group is closed by the last
parenthesis of the token, or not at all, and then groups inside may be open as well. -/
inductive Holds (kind : Kind) (inner : List Char) : List Char → Prop
  | closed {word : List Char} : Padded kind.label.toList word → Balanced inner →
      Holds kind inner (word ++ '(' :: (inner ++ [')']))
  | unclosed {word : List Char} {depth : Nat} : Padded kind.label.toList word →
      depthAfter? 0 inner = some depth → Holds kind inner (word ++ '(' :: inner)

theorem label_of_ofLabel? {word : List Char} (h : Kind.ofLabel? word = some kind) :
    kind.label.toList = word := by
  simpa only [decide_eq_true_eq] using List.find?_some h

theorem Opens.exists_group (h : Opens token kind) :
    ∃ word content, Padded kind.label.toList word ∧ token = word ++ '(' :: content := by
  obtain ⟨word, content, rfl, hopen⟩ := List.eq_append_cons_of_mem h.paren
  have hword := h.keyword
  rw [beforeOpen_append hopen] at hword
  exact ⟨word, content, label_of_ofLabel? hword ▸ padded_trim word, rfl⟩

theorem opens_of_padded {word : List Char} (h : Padded kind.label.toList word)
    (content : List Char) : Opens (word ++ '(' :: content) kind := by
  refine ⟨List.mem_append_right _ List.mem_cons_self, ?_⟩
  rw [beforeOpen_append (not_mem_keyword h '(' (by decide)), trim_keyword h, Kind.ofLabel?_label]

theorem body_eq_ok {g : Group} (h : splitGroup token = .group g) :
    body token = .ok inner ↔ inner = g.inner ∧ allBlank g.inner = false := by
  rw [body, h]
  dsimp only
  split
  · next hblank => simp [hblank]
  · next hblank => simp [hblank, eq_comm]

theorem body_textAfterClose (h : splitGroup token = .textAfterClose) :
    body token = .error (malformed token .textAfterClose) := by
  rw [body, h]

theorem Holds.splitGroup_eq (h : Holds kind inner token) :
    ∃ head, splitGroup token = .group ⟨head, inner⟩ := by
  cases h with
  | @closed word hword hinner =>
    exact ⟨word, splitGroup_closed (not_mem_keyword hword '(' (by decide)) hinner⟩
  | @unclosed word depth hword hinner =>
    exact ⟨word, splitGroup_unclosed (not_mem_keyword hword '(' (by decide)) hinner⟩

theorem Holds.opens (h : Holds kind inner token) : Opens token kind := by
  cases h with
  | closed hword _ | unclosed hword _ => exact opens_of_padded hword _

theorem Holds.body_eq (h : Holds kind inner token) (hblank : allBlank inner = false) :
    body token = .ok inner := by
  obtain ⟨head, hsplit⟩ := h.splitGroup_eq
  exact (body_eq_ok hsplit).mpr ⟨rfl, hblank⟩

/-- The inside of a token's group is what the group holds, and something is in it. -/
theorem Opens.holds (h : Opens token kind) (hbody : body token = .ok inner) :
    Holds kind inner token ∧ allBlank inner = false := by
  obtain ⟨word, content, hword, rfl⟩ := h.exists_group
  have hopen := not_mem_keyword hword '(' (by decide)
  cases hdepth : depthAfter? 0 content with
  | some depth =>
    obtain ⟨rfl, hblank⟩ := (body_eq_ok (splitGroup_unclosed hopen hdepth)).mp hbody
    exact ⟨.unclosed hword hdepth, hblank⟩
  | none =>
    obtain ⟨held, rest, rfl, hheld⟩ := exists_append_close hdepth
    cases rest with
    | nil =>
      obtain ⟨rfl, hblank⟩ := (body_eq_ok (splitGroup_closed hopen hheld)).mp hbody
      exact ⟨.closed hword hheld, hblank⟩
    | cons c rest =>
      rw [body_textAfterClose (splitGroup_textAfterClose hopen hheld (List.cons_ne_nil c rest))]
        at hbody
      cases hbody

/-! ## What tokens are read from -/

/-- What a token has to be for a type to be read from it. -/
def Parts (token : List Char) : Shape → Prop
  | .int | .float | .bool => '(' ∉ token ∧ ')' ∉ token
  | .str a => ∃ word content, Padded Kind.str.label.toList word ∧
      token = word ++ '(' :: content ∧ a = alphabet content
  | .list element => ∃ inner, Opens token .list ∧ body token = .ok inner ∧
      read inner = .ok element
  | .tuple element => ∃ inner, Opens token .tuple ∧ body token = .ok inner ∧
      read inner = .ok element
  | .set element => ∃ inner, Opens token .set ∧ body token = .ok inner ∧
      read inner = .ok element ∧ element.hashable = true
  | .dict key value => ∃ inner k v, Opens token .dict ∧ body token = .ok inner ∧
      halves token inner = .ok (k, v) ∧ read k = .ok key ∧ read v = .ok value ∧
      key.hashable = true

theorem parts_of_readPrimitive {e : Shape} (hopen : '(' ∉ token)
    (h : readPrimitive token = .ok e) : e.Parts token := by
  have hclose {kind : Kind} (hkind : Kind.ofLabel? token = some kind) : ')' ∉ token :=
    label_of_ofLabel? hkind ▸ kind.label_exposed.1 ')' (by decide)
  unfold readPrimitive at h
  split at h
  · next hkind =>
    cases h
    exact ⟨hopen, hclose hkind⟩
  · next hkind =>
    cases h
    exact ⟨hopen, hclose hkind⟩
  · next hkind =>
    cases h
    exact ⟨hopen, hclose hkind⟩
  · cases h

theorem parts_of_readTrimmed {e : Shape} (h : readTrimmed token = .ok e) : e.Parts token := by
  by_cases hopen : '(' ∈ token
  · rw [readTrimmed_eq hopen] at h
    split at h
    · next hkind =>
      cases h
      obtain ⟨word, content, hword, rfl⟩ := Opens.exists_group ⟨hopen, hkind⟩
      refine ⟨word, content, hword, rfl, ?_⟩
      rw [fromOpen_append (not_mem_keyword hword '(' (by decide)), List.drop_succ_cons,
        List.drop_zero]
    · next hkind =>
      obtain ⟨inner, hbody, h⟩ := bind_eq_ok.mp h
      obtain ⟨element, hread, rfl⟩ := map_eq_ok.mp h
      exact ⟨inner, ⟨hopen, hkind⟩, hbody, hread⟩
    · next hkind =>
      obtain ⟨inner, hbody, h⟩ := bind_eq_ok.mp h
      obtain ⟨element, hread, rfl⟩ := map_eq_ok.mp h
      exact ⟨inner, ⟨hopen, hkind⟩, hbody, hread⟩
    · next hkind =>
      obtain ⟨inner, hbody, hrest⟩ := bind_eq_ok.mp h
      obtain ⟨element, hread, hcheck⟩ := bind_eq_ok.mp hrest
      obtain ⟨_, hrequire, heq⟩ := bind_eq_ok.mp hcheck
      obtain ⟨rfl, hhashable⟩ := requireHashable_eq_ok.mp hrequire
      cases heq
      exact ⟨inner, ⟨hopen, hkind⟩, hbody, hread, hhashable⟩
    · next hkind =>
      obtain ⟨inner, hbody, hpair⟩ := bind_eq_ok.mp h
      obtain ⟨⟨k, v⟩, hhalves, hrest⟩ := bind_eq_ok.mp hpair
      obtain ⟨key, hkey, hcheck⟩ := bind_eq_ok.mp hrest
      obtain ⟨_, hrequire, hread⟩ := bind_eq_ok.mp hcheck
      obtain ⟨value, hvalue, heq⟩ := bind_eq_ok.mp hread
      obtain ⟨rfl, hhashable⟩ := requireHashable_eq_ok.mp hrequire
      cases heq
      exact ⟨inner, k, v, ⟨hopen, hkind⟩, hbody, hhalves, hkey, hvalue, hhashable⟩
    · cases h
  · rw [readTrimmed, if_pos hopen] at h
    exact parts_of_readPrimitive hopen h

/-! ## One more parenthesis -/

/-- The number of groups of a token that end where the token does. -/
def edge : Shape → Nat
  | .int | .float | .bool => 0
  | .str _ => 1
  | .list element | .tuple element | .set element => element.edge + 1
  | .dict _ value => value.edge + 1

/-- The type with a closing parenthesis in the alphabet that its token ends with, if it does. -/
def withClose : Shape → Shape
  | .int => .int
  | .float => .float
  | .bool => .bool
  | .str a => .str (if ')' ∈ a then a else a ++ [')'])
  | .list element => .list element.withClose
  | .tuple element => .tuple element.withClose
  | .set element => .set element.withClose
  | .dict key value => .dict key value.withClose

/-- What is read instead of `e` when one more closing parenthesis follows a token of `e` that
leaves `depth` of them open: if those are all the groups at its end, and its last character is a
closing parenthesis nevertheless, then the alphabet at its end was thought to be closed by it. -/
def afterClose (e : Shape) (s : List Char) (depth : Nat) : Shape :=
  if s.getLast? = some ')' ∧ e.edge ≤ depth then e.withClose else e

theorem withClose_of_edge_eq_zero {e : Shape} (h : e.edge = 0) : e.withClose = e := by
  cases e with
  | int | float | bool => rfl
  | str | list | tuple | set | dict => cases h

theorem hashable_withClose (e : Shape) : e.withClose.hashable = e.hashable := by
  induction e with
  | int | float | bool | str | list | set | dict => rfl
  | tuple element ih => exact ih

theorem hashable_afterClose (e : Shape) (s : List Char) (depth : Nat) :
    (e.afterClose s depth).hashable = e.hashable := by
  unfold afterClose
  split
  · exact hashable_withClose e
  · rfl

theorem afterClose_zero (e : Shape) (s : List Char) : e.afterClose s 0 = e := by
  unfold afterClose
  split
  · next h => exact withClose_of_edge_eq_zero (Nat.le_zero.mp h.2)
  · rfl

/-- The end of a container's token is that of its last part. -/
theorem afterClose_succ {e : Shape} (wrap : Shape → Shape) (hedge : (wrap e).edge = e.edge + 1)
    (hclose : (wrap e).withClose = wrap e.withClose)
    (hlast : s.getLast? = some ')' ↔ t.getLast? = some ')') (depth : Nat) :
    (wrap e).afterClose s (depth + 1) = wrap (e.afterClose t depth) := by
  simp only [afterClose, hedge, hclose, hlast, Nat.add_le_add_iff_right]
  split <;> rfl

/-- An alphabet ends before the last closing parenthesis, so one that was taken for the end of
it is part of it once another follows. -/
theorem alphabet_append_close (content : List Char) :
    Shape.str (alphabet (content ++ [')'])) =
      if content.getLast? = some ')' then (Shape.str (alphabet content)).withClose
      else .str (alphabet content) := by
  have hwhole : alphabet (content ++ [')']) = content.eraseDups := by
    rw [alphabet, dropFinal, List.getLast?_concat, if_pos rfl, List.dropLast_concat,
      distinctBy_eq_eraseDups]
  rw [hwhole]
  split
  · next hlast =>
    obtain ⟨core, rfl⟩ := List.getLast?_eq_some_iff.mp hlast
    rw [alphabet, dropFinal, if_pos hlast, List.dropLast_concat, distinctBy_eq_eraseDups,
      withClose, List.eraseDups_append]
    simp only [List.mem_eraseDups]
    by_cases hmem : ')' ∈ core
    · simp [hmem, List.removeAll]
    · simp [hmem, List.removeAll, List.eraseDups_cons]
  · next hlast =>
    rw [alphabet, dropFinal, if_neg hlast, distinctBy_eq_eraseDups]

/-! ## Tokens with one more parenthesis -/

theorem depthAfter?_closed {word : List Char} (h : Padded kind.label.toList word)
    (hinner : Balanced inner) : depthAfter? 0 (word ++ '(' :: (inner ++ [')'])) = some 0 :=
  (whole_of_keyword h).balanced.append hinner.parenthesised

theorem depthAfter?_unclosed {word : List Char} (h : Padded kind.label.toList word)
    (hinner : depthAfter? 0 inner = some depth) :
    depthAfter? 0 (word ++ '(' :: inner) = some (depth + 1) := by
  rw [depthAfter?_append, (whole_of_keyword h).balanced, Option.bind_some, depthAfter?_open,
    depthAfter?_add hinner]

theorem Holds.exists_unclosed (h : Holds kind inner token)
    (hdepth : depthAfter? 0 token = some (depth + 1)) :
    ∃ word, Padded kind.label.toList word ∧ token = word ++ '(' :: inner ∧
      depthAfter? 0 inner = some depth := by
  cases h with
  | closed hword hinner =>
    rw [depthAfter?_closed hword hinner] at hdepth
    cases hdepth
  | unclosed hword hinner =>
    rw [depthAfter?_unclosed hword hinner] at hdepth
    obtain rfl := Nat.succ.inj (Option.some.inj hdepth)
    exact ⟨_, hword, rfl, hinner⟩

theorem EndsFirm.of_append_cons {c : Char} (h : EndsFirm (s ++ c :: t)) : EndsFirm t := by
  intro d hd
  have hne : t ≠ [] := by
    rintro rfl
    cases hd
  refine h d ?_
  rw [List.append_cons, List.getLast?_append_of_ne_nil _ hne, hd]

/-- One more closing parenthesis at the end of a token with a group of its own that is open
closes that group, or stands at the end of what is in it. -/
theorem Holds.append_close (h : Holds kind inner token) (hblank : allBlank inner = false)
    (hdepth : depthAfter? 0 token = some (depth + 1)) :
    Opens (token ++ [')']) kind ∧
      body (token ++ [')']) = .ok (if depth = 0 then inner else inner ++ [')']) := by
  obtain ⟨word, hword, rfl, hinner⟩ := h.exists_unclosed hdepth
  rw [List.append_assoc, List.cons_append]
  cases depth with
  | zero =>
    have hclosed : Holds kind inner (word ++ '(' :: (inner ++ [')'])) := .closed hword hinner
    exact ⟨hclosed.opens, hclosed.body_eq hblank⟩
  | succ depth =>
    have hstep : depthAfter? 0 (inner ++ [')']) = some depth := by
      rw [depthAfter?_append, hinner, Option.bind_some]
      rfl
    have hunclosed : Holds kind (inner ++ [')']) (word ++ '(' :: (inner ++ [')'])) :=
      .unclosed hword hstep
    refine ⟨hunclosed.opens, hunclosed.body_eq ?_⟩
    rw [allBlank, List.all_append, ← allBlank, hblank, Bool.false_and]

/-- One more closing parenthesis changes nothing but the alphabet at the end of a token. -/
def ClosesTo (e : Shape) : Prop :=
  ∀ token depth, EndsFirm token → readTrimmed token = .ok e →
    depthAfter? 0 token = some (depth + 1) →
    readTrimmed (token ++ [')']) = .ok (e.afterClose token (depth + 1))

/-- So it is for a token that blanks stand before, and where nothing is open the parenthesis is
left to the group around the token. -/
theorem ClosesTo.read_eq {e : Shape} (h : ClosesTo e) (hfirm : EndsFirm s)
    (hread : read s = .ok e) (hdepth : depthAfter? 0 s = some depth) :
    read (if depth = 0 then s else s ++ [')']) = .ok (e.afterClose s depth) := by
  cases depth with
  | zero => rw [if_pos rfl, hread, afterClose_zero]
  | succ depth =>
    have hblank : allBlank s = false := by
      cases hall : allBlank s with
      | false => rfl
      | true =>
        rw [balanced_of_allBlank hall] at hdepth
        cases hdepth
    have hlast := getLast?_trimStart hblank
    have hfirm' : EndsFirm (trimStart s) := by rwa [EndsFirm, hlast]
    rw [read, hfirm.trim_eq] at hread
    have hclose := h (trimStart s) depth hfirm' hread (depthAfter?_trimStart 0 s ▸ hdepth)
    rw [if_neg (Nat.succ_ne_zero depth), read, trim_append_close hblank, hclose, afterClose,
      hlast, ← afterClose]

theorem ClosesTo.exists_element {e : Shape} (h : ClosesTo e) (hfirm : EndsFirm token)
    (hopens : Opens token kind) (hbody : body token = .ok inner) (hread : read inner = .ok e)
    (hdepth : depthAfter? 0 token = some (depth + 1)) :
    ∃ inner', Opens (token ++ [')']) kind ∧ body (token ++ [')']) = .ok inner' ∧
      read inner' = .ok (e.afterClose inner depth) ∧
      (token.getLast? = some ')' ↔ inner.getLast? = some ')') := by
  obtain ⟨hholds, hblank⟩ := hopens.holds hbody
  obtain ⟨hopens', hbody'⟩ := hholds.append_close hblank hdepth
  obtain ⟨word, -, rfl, hinner⟩ := hholds.exists_unclosed hdepth
  exact ⟨_, hopens', hbody', h.read_eq hfirm.of_append_cons hread hinner,
    getLast?_append_cons (by decide) word inner⟩

theorem halves_eq_ok {k v : List Char} :
    halves token inner = .ok (k, v) ↔
      splitTopLevel ':' inner = some (k, v) ∧ allBlank k = false ∧ allBlank v = false := by
  unfold halves
  split
  · next key value hsplit =>
    rw [hsplit]
    split
    · next hblank =>
      simp only [Bool.or_eq_true] at hblank
      constructor
      · rintro ⟨⟩
      · rintro ⟨heq, hk, hv⟩
        cases heq
        rw [hk, hv] at hblank
        exact absurd hblank (by decide)
    · next hblank =>
      simp only [Bool.or_eq_true, not_or, Bool.not_eq_true] at hblank
      simp only [Except.ok.injEq, Option.some.injEq, Prod.mk.injEq]
      constructor
      · rintro ⟨rfl, rfl⟩
        exact ⟨⟨rfl, rfl⟩, hblank⟩
      · rintro ⟨heq, -⟩
        exact heq
  · next hsplit => simp [hsplit]

theorem ClosesTo.exists_value {e : Shape} {k v : List Char} (h : ClosesTo e)
    (hfirm : EndsFirm token) (hopens : Opens token kind) (hbody : body token = .ok inner)
    (hhalves : halves token inner = .ok (k, v)) (hread : read v = .ok e)
    (hdepth : depthAfter? 0 token = some (depth + 1)) :
    ∃ inner' v', Opens (token ++ [')']) kind ∧ body (token ++ [')']) = .ok inner' ∧
      halves (token ++ [')']) inner' = .ok (k, v') ∧ read v' = .ok (e.afterClose v depth) ∧
      (token.getLast? = some ')' ↔ v.getLast? = some ')') := by
  obtain ⟨hholds, hblank⟩ := hopens.holds hbody
  obtain ⟨hopens', hbody'⟩ := hholds.append_close hblank hdepth
  obtain ⟨word, -, rfl, hinner⟩ := hholds.exists_unclosed hdepth
  obtain ⟨hsplit, hkblank, hvblank⟩ := halves_eq_ok.mp hhalves
  obtain ⟨rfl, hk, hcut, hv⟩ := splitAtDepth_eq_some hinner hsplit
  refine ⟨_, if depth = 0 then v else v ++ [')'], hopens', hbody',
    halves_eq_ok.mpr ⟨?_, hkblank, ?_⟩, h.read_eq hfirm.of_append_cons.of_append_cons hread hv, ?_⟩
  · have hjoin : (if depth = 0 then k ++ ':' :: v else k ++ ':' :: v ++ [')']) =
        k ++ ':' :: (if depth = 0 then v else v ++ [')']) := by
      split
      · rfl
      · rw [List.append_assoc, List.cons_append]
    rw [hjoin]
    exact splitTopLevel_append hk hcut (by decide) (by decide) _
  · split
    · exact hvblank
    · rw [allBlank, List.all_append, ← allBlank, hvblank, Bool.false_and]
  · rw [getLast?_append_cons (by decide), getLast?_append_cons (by decide)]

theorem closesTo_of_closed {e : Shape}
    (h : ∀ token, readTrimmed token = .ok e → '(' ∉ token ∧ ')' ∉ token) : ClosesTo e := by
  intro token depth _ hread hdepth
  obtain ⟨hopen, hclose⟩ := h token hread
  have hbalanced : Balanced token :=
    balanced_of_forall_ne fun c hc => ⟨fun heq => hopen (heq ▸ hc), fun heq => hclose (heq ▸ hc)⟩
  rw [hbalanced] at hdepth
  cases hdepth

theorem closesTo (e : Shape) : ClosesTo e := by
  induction e with
  | int | float | bool => exact closesTo_of_closed fun _ hread => parts_of_readTrimmed hread
  | str a =>
    intro token depth _ hread _
    obtain ⟨word, content, hword, rfl, rfl⟩ := parts_of_readTrimmed hread
    have hopens := opens_of_padded hword (content ++ [')'])
    have hopen := not_mem_keyword hword '(' (by decide)
    rw [List.append_assoc, List.cons_append, readTrimmed_str hopens, fromOpen_append hopen,
      List.drop_succ_cons, List.drop_zero, alphabet_append_close]
    simp only [afterClose, edge, Nat.le_add_left, and_true,
      getLast?_append_cons (show '(' ≠ ')' by decide)]
  | list element ih =>
    intro token depth hfirm hread hdepth
    obtain ⟨inner, hopens, hbody, helement⟩ := parts_of_readTrimmed hread
    obtain ⟨inner', hopens', hbody', helement', hlast⟩ :=
      ih.exists_element hfirm hopens hbody helement hdepth
    rw [readTrimmed_list hopens' hbody' helement', afterClose_succ .list rfl rfl hlast]
  | tuple element ih =>
    intro token depth hfirm hread hdepth
    obtain ⟨inner, hopens, hbody, helement⟩ := parts_of_readTrimmed hread
    obtain ⟨inner', hopens', hbody', helement', hlast⟩ :=
      ih.exists_element hfirm hopens hbody helement hdepth
    rw [readTrimmed_tuple hopens' hbody' helement', afterClose_succ .tuple rfl rfl hlast]
  | set element ih =>
    intro token depth hfirm hread hdepth
    obtain ⟨inner, hopens, hbody, helement, hhashable⟩ := parts_of_readTrimmed hread
    obtain ⟨inner', hopens', hbody', helement', hlast⟩ :=
      ih.exists_element hfirm hopens hbody helement hdepth
    have hhashable' := (hashable_afterClose element inner depth).trans hhashable
    rw [readTrimmed_set hopens' hbody' helement' hhashable', afterClose_succ .set rfl rfl hlast]
  | dict key value _ ih =>
    intro token depth hfirm hread hdepth
    obtain ⟨inner, k, v, hopens, hbody, hhalves, hkey, hvalue, hhashable⟩ :=
      parts_of_readTrimmed hread
    obtain ⟨inner', v', hopens', hbody', hhalves', hvalue', hlast⟩ :=
      ih.exists_value hfirm hopens hbody hhalves hvalue hdepth
    rw [readTrimmed_dict hopens' hbody' hhalves' hkey hvalue' hhashable,
      afterClose_succ (.dict key) rfl rfl hlast]

/-! ## Nesting -/

/-- A container around the token holds what the token is read as.  Nothing in the token closes
more than it opened, and a parenthesis at its end is not left to an alphabet that has no other
to be closed by. -/
def Nests (e : Shape) (token : List Char) : Prop :=
  ∃ depth, depthAfter? 0 token = some depth ∧
    (token.getLast? = some ')' → e.edge ≤ depth → e.withClose = e)

theorem nests_iff {e : Shape} (hdepth : depthAfter? 0 token = some depth) :
    e.Nests token ↔ e.afterClose token depth = e := by
  unfold Nests afterClose
  simp only [hdepth, Option.some.injEq, exists_eq_left']
  split
  · next h => exact ⟨fun himp => himp h.1 h.2, fun heq _ _ => heq⟩
  · next h => exact ⟨fun _ => rfl, fun _ hlast hedge => absurd ⟨hlast, hedge⟩ h⟩

/-- A container with elements of one type is read as what is in its group, and made by
`wrap`. -/
def ReadsAs (kind : Kind) (wrap : Shape → Except SpecError Shape) : Prop :=
  ∀ token, Opens token kind → readTrimmed token = body token >>= fun inner => read inner >>= wrap

theorem readsAs_list : ReadsAs .list fun e => .ok (.list e) := by
  intro token h
  rw [readTrimmed_eq h.paren, h.keyword]
  rfl

theorem readsAs_tuple : ReadsAs .tuple fun e => .ok (.tuple e) := by
  intro token h
  rw [readTrimmed_eq h.paren, h.keyword]
  rfl

theorem readsAs_set : ReadsAs .set fun e => (requireHashable .set e).map .set := by
  intro token h
  rw [readTrimmed_eq h.paren, h.keyword]
  rfl

theorem trim_groupText (kind : Kind) (s : List Char) :
    trim (groupText kind s) = groupText kind s := by
  have hblank := (whole_of_keyword (padded_self kind.label.toList)).solid.allBlank_eq_false
  rw [groupText, trim_group hblank (padded_self _), trimStart_eq_self]
  intro c hc
  exact kind.label_exposed.2.1 c (List.mem_of_head? hc)

theorem endsFirm_trim (s : List Char) : EndsFirm (trim s) := by
  intro c hc
  rw [trim, trimEnd, List.getLast?_reverse] at hc
  have hfirst := List.head?_dropWhile_not isBlank (trimStart s).reverse
  rw [hc] at hfirst
  simpa using hfirst

theorem allBlank_of_read {e : Shape} (h : read s = .ok e) : allBlank s = false := by
  cases hblank : allBlank s with
  | false => rfl
  | true =>
    have htrim : trim s = [] := by
      rw [trim, trimStart_eq_nil.mpr hblank]
      rfl
    rw [read, htrim, readTrimmed, if_pos List.not_mem_nil] at h
    cases h

/-- What is read from a container around a token of `e`: the type with the parenthesis that the
container was to be closed by, or an error if the token closes the container. -/
theorem read_groupText {e : Shape} {wrap : Shape → Except SpecError Shape}
    (hkind : ReadsAs kind wrap) (htrim : trim token = token) (hread : read token = .ok e) :
    read (groupText kind token) =
      match depthAfter? 0 token with
      | some depth => wrap (e.afterClose token depth)
      | none => .error (malformed (groupText kind token) .textAfterClose) := by
  have hword : Padded kind.label.toList kind.label.toList := padded_self _
  have hopens : Opens (groupText kind token) kind := opens_of_padded hword _
  rw [read, trim_groupText, hkind _ hopens]
  cases hdepth : depthAfter? 0 token with
  | some depth =>
    have hsplit : groupText kind token = (kind.label.toList ++ '(' :: token) ++ [')'] := by
      rw [groupText, List.append_assoc, List.cons_append]
    have hholds : Holds kind token (kind.label.toList ++ '(' :: token) := .unclosed hword hdepth
    obtain ⟨-, hbody⟩ :=
      hholds.append_close (allBlank_of_read hread) (depthAfter?_unclosed hword hdepth)
    rw [hsplit, hbody]
    show (read (if depth = 0 then token else token ++ [')']) >>= wrap) = _
    rw [(closesTo e).read_eq (htrim ▸ endsFirm_trim token) hread hdepth]
    rfl
  | none =>
    obtain ⟨inner, rest, rfl, hinner⟩ := exists_append_close hdepth
    have hopen := not_mem_keyword hword '(' (by decide)
    have hafter : splitGroup (groupText kind (inner ++ ')' :: rest)) = .textAfterClose := by
      rw [groupText, List.append_assoc, List.cons_append]
      exact splitGroup_textAfterClose hopen hinner (by simp)
    rw [body_textAfterClose hafter]
    rfl

/-! ## Alphabets without parentheses -/

theorem alphabet_eq_eraseDups (content : List Char) :
    alphabet content = (dropFinal ')' content).eraseDups :=
  distinctBy_eq_eraseDups _

/-- What nests in a container's last part nests in the container. -/
theorem Nests.wrap {e : Shape} (h : e.Nests t) (wrap : Shape → Shape)
    (hedge : (wrap e).edge = e.edge + 1) (hclose : (wrap e).withClose = wrap e.withClose)
    (hdepth : depthAfter? 0 t = some depth) (hdepth' : depthAfter? 0 s = some (depth + 1))
    (hlast : s.getLast? = some ')' ↔ t.getLast? = some ')') : (wrap e).Nests s := by
  rw [nests_iff hdepth] at h
  rw [nests_iff hdepth', afterClose_succ wrap hedge hclose hlast, h]

theorem nests_of_closed {e : Shape} (hedge : 0 < e.edge) (hdepth : depthAfter? 0 s = some 0) :
    e.Nests s :=
  ⟨0, hdepth, fun _ h => absurd hedge (Nat.not_lt.mpr h)⟩

/-- Blanks before a token do not matter. -/
theorem nests_trim {e : Shape} (hfirm : EndsFirm s) (hblank : allBlank s = false) :
    e.Nests (trim s) ↔ e.Nests s := by
  rw [hfirm.trim_eq, Nests, Nests, depthAfter?_trimStart, getLast?_trimStart hblank]

/-- What nests in the element of a container nests in the container. -/
theorem Holds.nests {e : Shape} (h : Holds kind inner token) (hfirm : EndsFirm token)
    (hblank : allBlank inner = false) (hinner : e.Nests (trim inner)) (wrap : Shape → Shape)
    (hedge : (wrap e).edge = e.edge + 1) (hclose : (wrap e).withClose = wrap e.withClose) :
    (wrap e).Nests token := by
  cases h with
  | closed hword hbalanced =>
    exact nests_of_closed (hedge ▸ Nat.succ_pos _) (depthAfter?_closed hword hbalanced)
  | unclosed hword hdepth =>
    exact ((nests_trim hfirm.of_append_cons hblank).mp hinner).wrap wrap hedge hclose hdepth
      (depthAfter?_unclosed hword hdepth) (getLast?_append_cons (by decide) _ inner)

/-- What nests in the value of a dictionary nests in the dictionary. -/
theorem Holds.nests_dict {key value : Shape} {k v : List Char} (h : Holds kind inner token)
    (hfirm : EndsFirm token) (hhalves : halves token inner = .ok (k, v))
    (hvalue : value.Nests (trim v)) : (dict key value).Nests token := by
  cases h with
  | closed hword hbalanced =>
    exact nests_of_closed (Nat.succ_pos _) (depthAfter?_closed hword hbalanced)
  | unclosed hword hdepth =>
    obtain ⟨hsplit, -, hblank⟩ := halves_eq_ok.mp hhalves
    obtain ⟨rfl, -, -, hv⟩ := splitAtDepth_eq_some hdepth hsplit
    refine ((nests_trim hfirm.of_append_cons.of_append_cons hblank).mp hvalue).wrap (.dict key)
      rfl rfl hv (depthAfter?_unclosed hword hdepth) ?_
    rw [getLast?_append_cons (by decide), getLast?_append_cons (by decide)]

theorem nests_of_not_mem {e : Shape} (h : '(' ∉ token ∧ ')' ∉ token) : e.Nests token := by
  refine ⟨0, depthAfter?_of_forall_ne (fun c hc => ?_) 0, fun hlast =>
    absurd (List.mem_of_getLast? hlast) h.2⟩
  exact ⟨fun heq => h.1 (heq ▸ hc), fun heq => h.2 (heq ▸ hc)⟩

theorem nests_str {word content : List Char} (hword : Padded kind.label.toList word)
    (hopen : '(' ∉ alphabet content) (hclose : ')' ∉ alphabet content) :
    (str (alphabet content)).Nests (word ++ '(' :: content) := by
  rw [alphabet_eq_eraseDups, List.mem_eraseDups] at hopen hclose
  have hbalanced : Balanced (dropFinal ')' content) :=
    balanced_of_forall_ne fun c hc => ⟨fun heq => hopen (heq ▸ hc), fun heq => hclose (heq ▸ hc)⟩
  by_cases hlast : content.getLast? = some ')'
  · obtain ⟨core, rfl⟩ := List.getLast?_eq_some_iff.mp hlast
    rw [dropFinal, if_pos hlast, List.dropLast_concat] at hbalanced
    exact nests_of_closed Nat.one_pos (depthAfter?_closed hword hbalanced)
  · rw [dropFinal, if_neg hlast] at hbalanced
    refine ⟨1, depthAfter?_unclosed hword hbalanced, fun hend => ?_⟩
    exact absurd ((getLast?_append_cons (by decide) word content).mp hend) hlast

/-- Parentheses that are in no alphabet are those of groups, and so they match. -/
theorem nests_of_readTrimmed {e : Shape} (he : ∀ a ∈ e.alphabets, '(' ∉ a ∧ ')' ∉ a) :
    ∀ token, EndsFirm token → readTrimmed token = .ok e → e.Nests token := by
  induction e with
  | int | float | bool =>
    intro token _ hread
    exact nests_of_not_mem (parts_of_readTrimmed hread)
  | str a =>
    intro token _ hread
    obtain ⟨word, content, hword, rfl, rfl⟩ := parts_of_readTrimmed hread
    obtain ⟨hopen, hclose⟩ := he _ List.mem_cons_self
    exact nests_str hword hopen hclose
  | list element ih =>
    intro token hfirm hread
    obtain ⟨inner, hopens, hbody, helement⟩ := parts_of_readTrimmed hread
    obtain ⟨hholds, hblank⟩ := hopens.holds hbody
    exact hholds.nests hfirm hblank (ih he _ (endsFirm_trim inner) helement) .list rfl rfl
  | tuple element ih =>
    intro token hfirm hread
    obtain ⟨inner, hopens, hbody, helement⟩ := parts_of_readTrimmed hread
    obtain ⟨hholds, hblank⟩ := hopens.holds hbody
    exact hholds.nests hfirm hblank (ih he _ (endsFirm_trim inner) helement) .tuple rfl rfl
  | set element ih =>
    intro token hfirm hread
    obtain ⟨inner, hopens, hbody, helement, -⟩ := parts_of_readTrimmed hread
    obtain ⟨hholds, hblank⟩ := hopens.holds hbody
    exact hholds.nests hfirm hblank (ih he _ (endsFirm_trim inner) helement) .set rfl rfl
  | dict key value _ ih =>
    intro token hfirm hread
    obtain ⟨inner, k, v, hopens, hbody, hhalves, -, hvalue, -⟩ := parts_of_readTrimmed hread
    obtain ⟨hholds, -⟩ := hopens.holds hbody
    have hvalues : ∀ a ∈ value.alphabets, '(' ∉ a ∧ ')' ∉ a :=
      fun a ha => he a (List.mem_append_right _ ha)
    exact hholds.nests_dict hfirm hhalves (ih hvalues _ (endsFirm_trim v) hvalue)

/-! ## Containers around tokens -/

/-- A container is read as the container of what its element's token is read as just if that
token nests, as tokens without parentheses in their alphabets do. -/
theorem read_groupText_eq_ok_iff {e : Shape} (htrim : trim token = token)
    (hread : read token = .ok e) :
    (read (groupText .list token) = .ok (.list e) ↔ e.Nests token) ∧
      (read (groupText .tuple token) = .ok (.tuple e) ↔ e.Nests token) ∧
      (e.hashable = true → (read (groupText .set token) = .ok (.set e) ↔ e.Nests token)) ∧
      ((∀ a ∈ e.alphabets, '(' ∉ a ∧ ')' ∉ a) → e.Nests token) := by
  have hnone (hdepth : depthAfter? 0 token = none) : ¬ e.Nests token := by
    rintro ⟨depth, hsome, -⟩
    rw [hdepth] at hsome
    cases hsome
  refine ⟨?_, ?_, fun hhashable => ?_, fun he => ?_⟩
  · rw [read_groupText readsAs_list htrim hread]
    cases hdepth : depthAfter? 0 token with
    | some depth => simp [nests_iff hdepth]
    | none => simp [hnone hdepth]
  · rw [read_groupText readsAs_tuple htrim hread]
    cases hdepth : depthAfter? 0 token with
    | some depth => simp [nests_iff hdepth]
    | none => simp [hnone hdepth]
  · rw [read_groupText readsAs_set htrim hread]
    cases hdepth : depthAfter? 0 token with
    | some depth =>
      have hhashable' := (hashable_afterClose e token depth).trans hhashable
      simp [nests_iff hdepth, requireHashable, hhashable', Except.map]
    | none => simp [hnone hdepth]
  · rw [read, htrim] at hread
    exact nests_of_readTrimmed he token (htrim ▸ endsFirm_trim token) hread

/-- A closing parenthesis that is missing from a tuple is missing from its containers. -/
theorem read_groupText_unclosed :
    let token := "tuple(str(a)".toList
    let e : Shape := .tuple (.str ['a'])
    trim token = token ∧ read token = .ok e ∧
      read (groupText .list token) = .ok (.list e) ∧
      read (groupText .tuple token) = .ok (.tuple e) ∧
      read (groupText .set token) = .ok (.set e) := by
  have htrim : trim "tuple(str(a)".toList = "tuple(str(a)".toList := by decide
  have hread : read "tuple(str(a)".toList = .ok (.tuple (.str ['a'])) := by cbv
  obtain ⟨hlist, htuple, hset, hnests⟩ := read_groupText_eq_ok_iff htrim hread
  have h := hnests (by decide)
  exact ⟨htrim, hread, hlist.mpr h, htuple.mpr h, (hset rfl).mpr h⟩

/-- An alphabet with an opening parenthesis has a closing one as well in a list. -/
theorem not_forall_read_groupText :
    ¬ ∀ (token : List Char) (e : Shape), trim token = token → read token = .ok e →
      read (groupText .list token) = .ok (.list e) := by
  intro h
  have hread : read "str(a(b)".toList = .ok (.str ['a', '(', 'b']) := by cbv
  have hlist : read (groupText .list "str(a(b)".toList) =
      .ok (.list (.str ['a', '(', 'b', ')'])) := by cbv
  have hclaim := h _ _ (by decide) hread
  rw [hlist] at hclaim
  exact absurd hclaim (by decide)

end Shape

end Divergence
