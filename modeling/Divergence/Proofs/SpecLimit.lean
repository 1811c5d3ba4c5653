/-
# `Divergence.Proofs.SpecLimit` — the limit on specifications

A specification is refused for its size only if it is too large: if one of its
parameters describes a domain tree with a node above the limit, or if all of
them describe trees and their product is above it.  A specification that is
accepted has neither, and the size computed for its base set is the number of
its exhaustive inputs.

What a specification describes is said here without the check: a parameter
describes the tree that its texts are read as.
-/
import Divergence.Proofs.Expansion
import Divergence.Proofs.ReaderErrors
import Divergence.Spec

namespace Divergence

/-- The error is that an expansion is too large. -/
def SpecError.Oversized (e : SpecError) : Prop :=
  ∃ scope count, e.root = .tooManyValues scope count

theorem SpecError.not_oversized_of_root {e : SpecError}
    (h : ∀ scope count, e.root ≠ .tooManyValues scope count) : ¬ e.Oversized := by
  rintro ⟨scope, count, heq⟩
  exact h scope count heq

theorem SpecError.OfType.not_oversized {e : SpecError} (h : e.OfType) : ¬ e.Oversized := by
  rintro ⟨scope, count, heq⟩
  rw [h.root_eq] at heq
  subst heq
  exact h

theorem SpecError.OfDomain.not_oversized {e : SpecError} (h : e.OfDomain) : ¬ e.Oversized := by
  rintro ⟨scope, count, heq⟩
  rw [h.root_eq] at heq
  subst heq
  exact h

namespace Spec

/-! ## What a text describes -/

/-- The texts of a parameter: a type token, an exhaustive and a random domain string. -/
abbrev ParameterTexts := String × String × String

/-- The texts of the parameters of a specification, as far as all three arrays go. -/
def parameterTexts (text : List Char) : List ParameterTexts :=
  match Json.readSound? text with
  | some (.object members) =>
    match stringsField members .types, stringsField members .exhaustive,
      stringsField members .random with
    | .ok types, .ok exhaustive, .ok random => types.zip (exhaustive.zip random)
    | _, _, _ => []
  | _ => []

/-- The texts of a parameter describe a domain tree. -/
def Describes (p : ParameterTexts) (tree : DomainTree) : Prop :=
  readTree p.1.toList p.2.1.toList p.2.2.toList = .ok tree

/-- The texts of a parameter describe one tree at most. -/
theorem describes_rightUnique : Relator.RightUnique Describes := by
  intro p t t' ht ht'
  exact Except.ok.inj (ht.symm.trans ht')

/-- No tree that a parameter describes has a node above the limit; and if all parameters
describe trees, their base set is within the limit as well. -/
structure WithinLimit (text : List Char) : Prop where
  nodes : ∀ p ∈ parameterTexts text, ∀ tree, Describes p tree → tree.Within
  baseSet : ∀ trees, List.Forall₂ Describes (parameterTexts text) trees →
    (DomainTree.inputs trees).length ≤ maxExhaustive

/-! ## Parameters -/

theorem readTree_errors (type exhaustive random : List Char) :
    AllErrors (fun e => ¬ e.Oversized) (readTree type exhaustive random) := by
  refine AllErrors.bind ?_ fun shape _ => ?_
  · exact (Shape.read_errors type).inField fun cause hcause => hcause.not_oversized
  · intro e he
    obtain ⟨field, cause, -, hcause, rfl⟩ := DomainTree.read_errors shape _ _ e he
    exact hcause.not_oversized

theorem readParameter_eq_ok {type exhaustive random : List Char} {tree : DomainTree} :
    readParameter type exhaustive random = .ok tree ↔
      readTree type exhaustive random = .ok tree ∧ tree.Within := by
  simp only [readParameter, bind_eq_ok, DomainTree.inField_eq_ok]
  constructor
  · rintro ⟨t, ht, _, hcheck, heq⟩
    cases heq
    exact ⟨ht, DomainTree.checkExpansion_eq_ok.mp hcheck⟩
  · rintro ⟨ht, hwithin⟩
    exact ⟨tree, ht, (), DomainTree.checkExpansion_eq_ok.mpr hwithin, rfl⟩

/-- A parameter that is refused for its size describes a tree that is too large. -/
theorem readParameter_oversized {type exhaustive random : List Char} {e : SpecError}
    (h : readParameter type exhaustive random = .error e) (hlarge : e.Oversized) :
    ∃ tree, readTree type exhaustive random = .ok tree ∧ ¬ tree.Within := by
  rcases bind_eq_error.mp h with hread | ⟨tree, htree, hrest⟩
  · exact absurd hlarge (readTree_errors _ _ _ e hread)
  · refine ⟨tree, htree, fun hwithin => ?_⟩
    rw [DomainTree.checkExpansion_eq_ok.mpr hwithin] at hrest
    cases hrest

theorem readParameters_eq_ok {index : Nat} {types exhaustive random : List String}
    {trees : List DomainTree} (h : readParameters index types exhaustive random = .ok trees) :
    List.Forall₂ Describes (types.zip (exhaustive.zip random)) trees ∧
      ∀ tree ∈ trees, tree.Within := by
  fun_induction readParameters index types exhaustive random generalizing trees with
  | case1 => cases h
  | case2 index type types x exhaustive r random tree htree ih =>
    obtain ⟨rest, hrest, rfl⟩ := map_eq_ok.mp h
    obtain ⟨hdescribes, hwithin⟩ := readParameter_eq_ok.mp htree
    obtain ⟨hall, hallWithin⟩ := ih hrest
    exact ⟨.cons hdescribes hall, List.forall_mem_cons.mpr ⟨hwithin, hallWithin⟩⟩
  | case3 types index exhaustive random hshort =>
    cases h
    refine ⟨?_, fun tree htree => absurd htree List.not_mem_nil⟩
    -- one of the arrays has come to its end
    cases types with
    | nil => exact .nil
    | cons type types => cases exhaustive with
      | nil => exact .nil
      | cons x exhaustive => cases random with
        | nil => exact .nil
        | cons r random => exact absurd rfl (hshort _ _ _ _ _ _ rfl rfl)

theorem readParameters_oversized {index : Nat} {types exhaustive random : List String}
    {e : SpecError} (h : readParameters index types exhaustive random = .error e)
    (hlarge : e.Oversized) :
    ∃ p ∈ types.zip (exhaustive.zip random), ∃ tree, Describes p tree ∧ ¬ tree.Within := by
  fun_induction readParameters index types exhaustive random with
  | case1 index type types x exhaustive r random cause hcause =>
    cases h
    obtain ⟨tree, htree, hwithin⟩ := readParameter_oversized hcause hlarge
    exact ⟨(type, x, r), List.mem_cons_self, tree, htree, hwithin⟩
  | case2 index type types x exhaustive r random tree htree ih =>
    obtain ⟨p, hp, hdescribes⟩ := ih (map_eq_error.mp h)
    exact ⟨p, List.mem_cons_of_mem _ hp, hdescribes⟩
  | case3 => cases h

/-! ## Specifications -/

theorem checkBaseSet_eq_ok {parameters : List DomainTree} :
    checkBaseSet parameters = .ok () ↔ DomainTree.baseSetSize parameters ≤ maxExhaustive := by
  rw [checkBaseSet, ← Nat.not_lt]
  split
  · next h =>
    constructor
    · intro heq
      cases heq
    · intro hle
      exact absurd h hle
  · next h =>
    constructor
    · intro _
      exact h
    · intro _
      rfl

theorem ofMembers_eq_ok {members : Members} {spec : Spec} (h : ofMembers members = .ok spec) :
    ∃ types exhaustive random, stringsField members .types = .ok types ∧
      stringsField members .exhaustive = .ok exhaustive ∧
      stringsField members .random = .ok random ∧
      readParameters 0 types exhaustive random = .ok spec.parameters ∧
      checkBaseSet spec.parameters = .ok () := by
  simp only [ofMembers, bind_eq_ok] at h
  obtain ⟨_, _, function, _, types, htypes, exhaustive, hexhaustive, random, hrandom, numRandom,
    _, seed, _, _, _, parameters, hparameters, _, hcheck, heq⟩ := h
  cases heq
  exact ⟨types, exhaustive, random, htypes, hexhaustive, hrandom, hparameters, hcheck⟩

theorem parameterTexts_eq {text : List Char} {members : Members}
    {types exhaustive random : List String}
    (hmembers : Json.readSound? text = some (.object members))
    (htypes : stringsField members .types = .ok types)
    (hexhaustive : stringsField members .exhaustive = .ok exhaustive)
    (hrandom : stringsField members .random = .ok random) :
    parameterTexts text = types.zip (exhaustive.zip random) := by
  simp only [parameterTexts, hmembers, htypes, hexhaustive, hrandom]

/-- A specification that is accepted describes its parameters, and is within the limit. -/
theorem read_eq_ok {text : List Char} {spec : Spec} (h : read text = .ok spec) :
    List.Forall₂ Describes (parameterTexts text) spec.parameters ∧
      (∀ tree ∈ spec.parameters, tree.Within) ∧
      DomainTree.baseSetSize spec.parameters ≤ maxExhaustive := by
  unfold read at h
  split at h
  · cases h
  · next members hmembers =>
    obtain ⟨types, exhaustive, random, htypes, hexhaustive, hrandom, hparameters, hcheck⟩ :=
      ofMembers_eq_ok h
    obtain ⟨hall, hwithin⟩ := readParameters_eq_ok hparameters
    rw [parameterTexts_eq hmembers htypes hexhaustive hrandom]
    exact ⟨hall, hwithin, checkBaseSet_eq_ok.mp hcheck⟩
  · cases h

/-- If all parameters describe trees, it is these that have to be within the limit. -/
theorem withinLimit_of_describes {text : List Char} {trees : List DomainTree}
    (hall : List.Forall₂ Describes (parameterTexts text) trees)
    (hwithin : ∀ tree ∈ trees, tree.Within) (hsize : DomainTree.baseSetSize trees ≤ maxExhaustive) :
    WithinLimit text where
  nodes p hp tree hdescribes := by
    obtain ⟨tree', htree', hdescribes'⟩ := exists_mem_of_forall₂ hall.flip hp
    exact describes_rightUnique hdescribes' hdescribes ▸ hwithin tree' htree'
  baseSet trees' hall' := by
    rw [describes_rightUnique.forall₂ hall' hall]
    exact (DomainTree.counts_baseSetSize hwithin).le_iff.mp hsize

theorem typedField_errors {α : Type} (members : Members) (field : Field) (expected : Expected)
    (read : Json → Option α) :
    AllErrors (fun e => ¬ e.Oversized) (typedField members field expected read) := by
  unfold typedField
  split
  · exact allErrors_ok _
  · refine allErrors_error (SpecError.not_oversized_of_root ?_)
    intro scope count heq
    cases heq

theorem checkRequired_errors (members : Members) :
    AllErrors (fun e => ¬ e.Oversized) (checkRequired members) := by
  unfold checkRequired
  split
  · exact allErrors_ok _
  · refine allErrors_error (SpecError.not_oversized_of_root ?_)
    intro scope count heq
    cases heq

theorem seedField_errors (members : Members) :
    AllErrors (fun e => ¬ e.Oversized) (seedField members) := by
  unfold seedField
  split
  · exact allErrors_ok _
  · exact (typedField_errors members _ _ _).map

theorem checkLengths_errors (types exhaustive random : List String) :
    AllErrors (fun e => ¬ e.Oversized) (checkLengths types exhaustive random) := by
  unfold checkLengths
  split
  · exact allErrors_ok _
  · refine allErrors_error (SpecError.not_oversized_of_root ?_)
    intro scope count heq
    cases heq

/-- An object that is refused for its size is read up to its parameters: one of them is too
large, or all of them together. -/
theorem ofMembers_oversized {members : Members} {e : SpecError}
    (h : ofMembers members = .error e) (hlarge : e.Oversized) :
    ∃ types exhaustive random, stringsField members .types = .ok types ∧
      stringsField members .exhaustive = .ok exhaustive ∧
      stringsField members .random = .ok random ∧
      ((∃ e, readParameters 0 types exhaustive random = .error e ∧ e.Oversized) ∨
        ∃ trees, readParameters 0 types exhaustive random = .ok trees ∧
          maxExhaustive < DomainTree.baseSetSize trees) := by
  simp only [ofMembers, bind_eq_error] at h
  rcases h with h | ⟨_, -, h⟩
  · exact absurd hlarge (checkRequired_errors members e h)
  rcases h with h | ⟨function, -, h⟩
  · exact absurd hlarge (typedField_errors members _ _ _ e h)
  rcases h with h | ⟨types, htypes, h⟩
  · exact absurd hlarge (typedField_errors members _ _ _ e h)
  rcases h with h | ⟨exhaustive, hexhaustive, h⟩
  · exact absurd hlarge (typedField_errors members _ _ _ e h)
  rcases h with h | ⟨random, hrandom, h⟩
  · exact absurd hlarge (typedField_errors members _ _ _ e h)
  rcases h with h | ⟨numRandom, -, h⟩
  · exact absurd hlarge (typedField_errors members _ _ _ e h)
  rcases h with h | ⟨seed, -, h⟩
  · exact absurd hlarge (seedField_errors members e h)
  rcases h with h | ⟨_, -, h⟩
  · exact absurd hlarge (checkLengths_errors types exhaustive random e h)
  refine ⟨types, exhaustive, random, htypes, hexhaustive, hrandom, ?_⟩
  rcases h with h | ⟨trees, htrees, h⟩
  · exact .inl ⟨e, h, hlarge⟩
  rcases h with h | ⟨_, -, h⟩
  · refine .inr ⟨trees, htrees, ?_⟩
    by_contra hle
    rw [checkBaseSet_eq_ok.mpr (Nat.not_lt.mp hle)] at h
    cases h
  · cases h

/-- A specification that is refused for its size is too large. -/
theorem not_withinLimit_of_oversized {text : List Char} {e : SpecError}
    (h : read text = .error e) (hlarge : e.Oversized) : ¬ WithinLimit text := by
  intro hlimit
  unfold read at h
  split at h
  · cases h
    obtain ⟨scope, count, heq⟩ := hlarge
    cases heq
  · next members hmembers =>
    obtain ⟨types, exhaustive, random, htypes, hexhaustive, hrandom, hcases⟩ :=
      ofMembers_oversized h hlarge
    have htexts := parameterTexts_eq hmembers htypes hexhaustive hrandom
    rcases hcases with ⟨e', hparameters, hlarge'⟩ | ⟨trees, hparameters, hsize⟩
    · obtain ⟨p, hp, tree, htree, hnot⟩ := readParameters_oversized hparameters hlarge'
      exact hnot (hlimit.nodes p (htexts ▸ hp) tree htree)
    · obtain ⟨hall, hwithin⟩ := readParameters_eq_ok hparameters
      have hlength := hlimit.baseSet trees (htexts ▸ hall)
      have hcount := (DomainTree.counts_baseSetSize hwithin).le_iff.mpr hlength
      exact absurd hsize (Nat.not_lt.mpr hcount)
  · cases h
    obtain ⟨scope, count, heq⟩ := hlarge
    cases heq

/-- The limit is decided by counting alone.  A tree passes the check if none of its nodes has
more values than the limit, and is counted exactly then.  So an accepted specification has
the base set that was computed for it, within the limit; and none is refused for its size
whose nodes and base set are within the limit. -/
theorem limit_exact :
    (∀ t : DomainTree, t.checkExpansion = .ok () ↔
      ∀ n ∈ t.nodes, n.values.length ≤ maxExhaustive) ∧
    (∀ t : DomainTree, t.checkExpansion = .ok () →
      ∀ n ∈ t.nodes, n.exhaustiveCount = n.values.length) ∧
    (∀ text spec, read text = .ok spec →
      DomainTree.baseSetSize spec.parameters = (DomainTree.inputs spec.parameters).length ∧
        DomainTree.baseSetSize spec.parameters ≤ maxExhaustive) ∧
    ∀ text e, read text = .error e → WithinLimit text →
      ∀ scope count, e.root ≠ .tooManyValues scope count := by
  refine ⟨fun t => DomainTree.checkExpansion_eq_ok, ?_, ?_, ?_⟩
  · intro t ht
    exact DomainTree.exhaustiveCount_eq (DomainTree.checkExpansion_eq_ok.mp ht)
  · intro text spec h
    obtain ⟨-, hwithin, hsize⟩ := read_eq_ok h
    have hcounts := DomainTree.counts_baseSetSize hwithin
    exact ⟨hcounts.eq_of_le (hcounts.le_iff.mp hsize), hsize⟩
  · intro text e h hlimit scope count hroot
    exact not_withinLimit_of_oversized h ⟨scope, count, hroot⟩ hlimit

/-- A specification of one parameter, whose values are the sets of two of three numbers. -/
def pairsText : List Char :=
  ("\x7b\"fname\": \"f\", \"types\": [\"set(int)\"], \"exhaustive domain\": [\"2(1~3)\"], " ++
    "\"random domain\": [\"0~2(1~9)\"], \"num random\": 5\x7d").toList

/-- The exhaustive side of the domain tree of `pairsText`. -/
def pairs : DomainTree :=
  .set (.int ⟨[1, 2, 3], []⟩) ⟨[2], []⟩

/-- The whole of this domain tree, with the random side. -/
def drawnPairs : DomainTree :=
  .set (.int ⟨[1, 2, 3], [1, 2, 3, 4, 5, 6, 7, 8, 9]⟩) ⟨[2], [0, 1, 2]⟩

/-- The same specification, but that the number of random inputs is negative. -/
def negativeText : List Char :=
  ("\x7b\"fname\": \"f\", \"types\": [\"set(int)\"], \"exhaustive domain\": [\"2(1~3)\"], " ++
    "\"random domain\": [\"0~2(1~9)\"], \"num random\": -5\x7d").toList

theorem read_pairsText : ∃ spec, read pairsText = .ok spec ∧ spec.numRandom = 5 :=
  map_eq_ok.mp (by decide +kernel)

theorem describes_negativeText :
    List.Forall₂ Describes (parameterTexts negativeText) [drawnPairs] := by
  have htexts : parameterTexts negativeText = [("set(int)", "2(1~3)", "0~2(1~9)")] := by
    decide +kernel
  have htree : readTree "set(int)".toList "2(1~3)".toList "0~2(1~9)".toList = .ok drawnPairs := by
    decide +kernel
  exact htexts ▸ .cons htree .nil

theorem limit_exact_pairs :
    (pairs.checkExpansion = .ok () ∧ ∀ n ∈ pairs.nodes, n.exhaustiveCount = n.values.length) ∧
    (∃ spec, read pairsText = .ok spec ∧
      DomainTree.baseSetSize spec.parameters = (DomainTree.inputs spec.parameters).length ∧
        DomainTree.baseSetSize spec.parameters ≤ maxExhaustive) ∧
    (List.Forall₂ Describes (parameterTexts negativeText) [drawnPairs] ∧
      read negativeText = .error (.wrongFieldType .numRandom .natural) ∧ WithinLimit negativeText ∧
      ∀ scope count,
        (SpecError.wrongFieldType .numRandom .natural).root ≠ .tooManyValues scope count) := by
  obtain ⟨spec, hread, -⟩ := read_pairsText
  have hrefused : read negativeText = .error (.wrongFieldType .numRandom .natural) :=
    map_eq_error.mp (by decide +kernel : (read negativeText).map (fun _ => ()) = _)
  have hwithin : drawnPairs.Within := DomainTree.checkExpansion_eq_ok.mp rfl
  have hlimit : WithinLimit negativeText :=
    withinLimit_of_describes describes_negativeText (List.forall_mem_singleton.mpr hwithin)
      (by decide)
  exact ⟨⟨rfl, limit_exact.2.1 pairs rfl⟩, ⟨spec, hread, limit_exact.2.2.1 pairsText spec hread⟩,
    describes_negativeText, hrefused, hlimit, limit_exact.2.2.2 negativeText _ hrefused hlimit⟩

end Spec

end Divergence
