/-
# `Divergence.Proofs.Names` — when candidates have distinct names

Renaming leaves a list of names in which some may repeat, and numbering then
puts a number after every name that occurred before.  Two candidates end up
with one name only in one way: a name that repeats is given a number, and
another candidate has the numbered name already.  Nothing rules that out, since
a file may be called anything.

The numbers are looked at apart from the names: every candidate has a tag, the
name it is numbered after and how often that name has occurred.  Tags are
always distinct; what may coincide is only how two of them are written.
-/
import Divergence.Implementation.Basic
import Mathlib.Data.List.Nodup

namespace Divergence

/-! ## Writing a tag -/

namespace Implementation

theorem toList_numbered (name : String) (n : Nat) :
    (numbered name n).toList = name.toList ++ '#' :: Nat.toDigits 10 n := by
  show (name ++ "#" ++ toString n).toList = _
  simp only [String.toList_append, List.append_assoc, Nat.toString_eq_ofList_toDigits,
    String.toList_ofList]
  rfl

theorem hash_notMem_toDigits (n : Nat) : '#' ∉ Nat.toDigits 10 n := by
  intro h
  have hdigit := Nat.isDigit_of_mem_toDigits (by decide) (by decide) h
  exact absurd hdigit (by decide)

/-- What follows the last `#` is what comes first in reverse. -/
theorem takeWhile_reverse {front digits : List Char} (h : '#' ∉ digits) :
    (front ++ '#' :: digits).reverse.takeWhile (· ≠ '#') = digits.reverse := by
  have hall : ∀ c ∈ digits.reverse, (decide (c ≠ '#')) = true := by
    intro c hc
    apply decide_eq_true
    rintro rfl
    exact h (List.mem_reverse.mp hc)
  rw [List.reverse_append, List.reverse_cons, List.append_assoc,
    List.takeWhile_append_of_pos hall]
  simp

theorem numbered_inj {name name' : String} {n n' : Nat}
    (h : numbered name n = numbered name' n') : name = name' ∧ n = n' := by
  have hlist : name.toList ++ '#' :: Nat.toDigits 10 n =
      name'.toList ++ '#' :: Nat.toDigits 10 n' := by
    rw [← toList_numbered, ← toList_numbered, h]
  have hdigits : Nat.toDigits 10 n = Nat.toDigits 10 n' := by
    apply List.reverse_injective
    rw [← takeWhile_reverse (hash_notMem_toDigits n), hlist,
      takeWhile_reverse (hash_notMem_toDigits n')]
  constructor
  · rw [hdigits] at hlist
    exact String.toList_inj.mp (List.append_cancel_right hlist)
  · calc n = Nat.ofDigitChars 10 (Nat.toDigits 10 n) 0 := Nat.ofDigitChars_ten_toDigits.symm
      _ = Nat.ofDigitChars 10 (Nat.toDigits 10 n') 0 := by rw [hdigits]
      _ = n' := Nat.ofDigitChars_ten_toDigits

/-- The name of a candidate that is the `n`-th of its name. -/
def written (tag : String × Nat) : String :=
  if 1 < tag.2 then numbered tag.1 tag.2 else tag.1

/-! ## The tags of a list of names -/

/-- Names with how often each has occurred so far, `earlier` included. -/
def tags (earlier : List String) : List String → List (String × Nat)
  | [] => []
  | name :: names => (name, earlier.count name + 1) :: tags (name :: earlier) names

theorem map_name_numberRepeated (earlier : List String) (candidates : List Implementation) :
    (numberRepeated earlier candidates).map Implementation.name =
      (tags earlier (candidates.map Implementation.name)).map written := by
  induction candidates generalizing earlier with
  | nil => rfl
  | cons i rest ih =>
    rw [numberRepeated, List.map_cons, List.map_cons, tags, List.map_cons, ih]
    rfl

theorem mem_tags {earlier names : List String} {name : String} {n : Nat} :
    (name, n) ∈ tags earlier names ↔
      earlier.count name < n ∧ n ≤ earlier.count name + names.count name := by
  induction names generalizing earlier with
  | nil =>
    rw [tags, List.count_nil]
    constructor
    · intro h
      exact absurd h List.not_mem_nil
    · rintro ⟨hlt, hle⟩
      omega
  | cons first rest ih =>
    rw [tags, List.mem_cons, ih, Prod.mk.injEq]
    by_cases h : name = first
    · subst h
      rw [List.count_cons_self, List.count_cons_self, eq_self, true_and]
      omega
    · rw [List.count_cons_of_ne (Ne.symm h), List.count_cons_of_ne (Ne.symm h)]
      constructor
      · rintro (⟨heq, -⟩ | hrest)
        · exact absurd heq h
        · exact hrest
      · intro hrest
        exact .inr hrest

theorem nodup_tags (earlier names : List String) : (tags earlier names).Nodup := by
  induction names generalizing earlier with
  | nil => exact List.nodup_nil
  | cons first rest ih =>
    refine List.nodup_cons.mpr ⟨?_, ih (first :: earlier)⟩
    -- the tags that follow count `first` as one that has occurred
    intro h
    have hlt := (mem_tags.mp h).1
    rw [List.count_cons_self] at hlt
    exact Nat.lt_irrefl _ hlt

/-- Two tags are written alike if one is numbered and the other is not. -/
theorem nodup_map_written_iff {names : List String} :
    ((tags [] names).map written).Nodup ↔
      ∀ name n, 2 ≤ n → n ≤ names.count name → numbered name n ∉ names := by
  have hmem {name : String} {n : Nat} :
      (name, n) ∈ tags [] names ↔ 1 ≤ n ∧ n ≤ names.count name := by
    rw [mem_tags, List.count_nil, Nat.zero_add]
    exact Iff.rfl
  rw [List.nodup_map_iff_inj_on (nodup_tags [] names)]
  constructor
  · intro hinj name n htwo hcount htaken
    have hrepeated : (name, n) ∈ tags [] names := hmem.mpr ⟨by omega, hcount⟩
    have hfirst : (numbered name n, 1) ∈ tags [] names :=
      hmem.mpr ⟨Nat.le_refl 1, List.count_pos_iff.mpr htaken⟩
    have hsame : written (name, n) = written (numbered name n, 1) := if_pos htwo
    have heq := hinj _ hrepeated _ hfirst hsame
    have hone : n = 1 := (Prod.mk.inj heq).2
    omega
  · rintro hfree ⟨name, n⟩ htag ⟨name', n'⟩ htag' hsame
    obtain ⟨hpos, hcount⟩ := hmem.mp htag
    obtain ⟨hpos', hcount'⟩ := hmem.mp htag'
    have hlisted : name ∈ names := List.count_pos_iff.mp (Nat.lt_of_lt_of_le hpos hcount)
    have hlisted' : name' ∈ names := List.count_pos_iff.mp (Nat.lt_of_lt_of_le hpos' hcount')
    by_cases hn : 1 < n
    · by_cases hn' : 1 < n'
      · rw [written, written, if_pos hn, if_pos hn'] at hsame
        obtain ⟨rfl, rfl⟩ := numbered_inj hsame
        rfl
      · rw [written, written, if_pos hn, if_neg hn'] at hsame
        exact absurd (hsame ▸ hlisted') (hfree name n hn hcount)
    · by_cases hn' : 1 < n'
      · rw [written, written, if_neg hn, if_pos hn'] at hsame
        exact absurd (hsame ▸ hlisted) (hfree name' n' hn' hcount')
      · rw [written, written, if_neg hn, if_neg hn'] at hsame
        have hone : n = n' := by omega
        exact Prod.ext hsame hone

end Implementation

/-! ## The names of candidates -/

namespace Implementations

open Implementation

/-- The names of the candidates, in order. -/
def candidateNames (i : Implementations) : List String :=
  i.candidates.map Implementation.name

/-- The names that candidates have when those that share one are renamed after their paths,
before any number is given. -/
def basicNames (candidates : List Implementation) : List String :=
  (renameShared candidates).map Implementation.name

/-- Candidates have distinct names unless one of them is called like a number given to
another. -/
theorem names_nodup_iff (reference : Implementation) (candidates : List Implementation) :
    (ofParts reference candidates).candidateNames.Nodup ↔
      ∀ name n, 2 ≤ n → n ≤ (basicNames candidates).count name →
        numbered name n ∉ basicNames candidates := by
  have hnames : (ofParts reference candidates).candidateNames =
      (tags [] (basicNames candidates)).map written :=
    map_name_numberRepeated [] (renameShared candidates)
  rw [hnames]
  exact nodup_map_written_iff

/-- A file given twice, and a file that has the name its repetition is given. -/
theorem names_not_nodup :
    ¬ (ofParts (ofPath "ref.py")
      (["impl.py", "impl.py", "impl#2.py"].map ofPath)).candidateNames.Nodup := by
  decide +kernel

end Implementations

end Divergence
