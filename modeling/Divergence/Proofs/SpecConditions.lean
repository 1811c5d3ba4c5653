/-
# `Divergence.Proofs.SpecConditions` — which texts are specifications

A text is a specification if a list of conditions holds of it (`conditions`): it is
an object, has the required fields, each field is of its type, the three arrays
have one length, each parameter is described by its texts and within the limit, and
so is the base set.  A text of which not all hold is rejected with the error of the
first that does not (`read_in_order`).

Each condition can be stated of every text, also of one that has failed an earlier
one: the members of a text without an object are none, and the texts of a field
without an array are none.
-/
import Divergence.Proofs.Conditions
import Divergence.Proofs.Independence
import Divergence.Proofs.SpecLimit

namespace Divergence

/-- What a field should hold. -/
def Field.expected : Field → Expected
  | .function => .string
  | .types | .exhaustive | .random => .strings
  | .numRandom | .seed => .natural

/-- The value is of a type. -/
def Json.HasType (value : Json) : Expected → Prop
  | .string => ∃ s, value = .ofString s
  | .strings => ∃ ss : List String, value = .array (ss.map .ofString)
  | .natural => ∃ n < 2 ^ 64, value = .ofNat n

namespace Spec

/-! ## Conditions -/

/-- The members of the object that a text is. -/
def members (text : List Char) : Members :=
  match Json.readSound? text with
  | some (.object members) => members
  | _ => []

/-- The field has a value other than `null`. -/
def Present (members : Members) (field : Field) : Prop :=
  ∃ value, Json.lastNamed? members field.label = some value ∧ value ≠ .null

/-- The texts that a field holds. -/
def strings (members : Members) (field : Field) : List String :=
  ((field? members field).bind texts?).getD []

def isJson (text : List Char) : Condition :=
  .reportedBy .notJson (∃ json, Json.readSound? text = some json)

def isObject (text : List Char) : Condition :=
  .reportedBy .notAnObject (∃ members, Json.readSound? text = some (.object members))

def complete (members : Members) : Condition :=
  .reportedBy (.missingFields (missing members)) (∀ field ∈ Field.required, Present members field)

/-- A field that has a value has one of its type. -/
def typed (members : Members) (field : Field) : Condition :=
  .reportedBy (.wrongFieldType field field.expected)
    (∀ value, field? members field = some value → value.HasType field.expected)

/-- The three arrays have one length. -/
def aligned (members : Members) : Condition :=
  let types := strings members .types
  let exhaustive := strings members .exhaustive
  let random := strings members .random
  .reportedBy (.lengthMismatch types.length exhaustive.length random.length)
    (types.length = exhaustive.length ∧ types.length = random.length)

/-- The texts of a parameter describe a tree, and none of its expansions is above the limit. -/
def Acceptable (p : ParameterTexts) : Prop :=
  ∃ shape tree, Shape.read p.1.toList = .ok shape ∧
    DomainTree.read shape (Text.trim p.2.1.toList) (Text.trim p.2.2.toList) = .ok tree ∧
    tree.checkExpansion = .ok ()

/-- What is wrong with a parameter, and the field it is found in: the type before the domains,
and the size of an expansion last. -/
inductive ParameterFault (p : ParameterTexts) : Field → SpecError → Prop
  | type {cause : SpecError} :
      Shape.read p.1.toList = .error cause → ParameterFault p .types cause
  | domain {shape : Shape} {field : Field} {cause : SpecError} :
      Shape.read p.1.toList = .ok shape →
      DomainTree.read shape (Text.trim p.2.1.toList) (Text.trim p.2.2.toList) =
        .error (.inField field cause) →
      ParameterFault p field cause
  | size {shape : Shape} {tree : DomainTree} {cause : SpecError} :
      Shape.read p.1.toList = .ok shape →
      DomainTree.read shape (Text.trim p.2.1.toList) (Text.trim p.2.2.toList) = .ok tree →
      tree.checkExpansion = .error cause →
      ParameterFault p .exhaustive cause

/-- The parameter at an index is in order. -/
def parameter (p : ParameterTexts) (index : Nat) : Condition where
  holds := Acceptable p
  fault e := ∃ field cause, e = .atParameter index (.inField field cause) ∧
    ParameterFault p field cause

/-- The product of the counts of all parameters is within the limit.  Parameters that are in order
describe just one list of trees. -/
def bounded (parameters : List ParameterTexts) : Condition where
  holds := ∀ trees, List.Forall₂ Describes parameters trees →
    (trees.map DomainTree.exhaustiveCount).prod ≤ maxExhaustive
  fault e := ∃ trees, List.Forall₂ Describes parameters trees ∧
    e = .tooManyValues .baseSet (min (trees.map DomainTree.exhaustiveCount).prod Count.cap)

/-- What the members of a specification have to be, in the order in which it is checked. -/
def memberConditions (members : Members) (parameters : List ParameterTexts) : List Condition :=
  [complete members] ++ (Field.required ++ [Field.seed]).map (typed members) ++
    [aligned members] ++ parameters.zipIdx.map (fun p => parameter p.1 p.2) ++
    [bounded parameters]

/-- What a text has to be to be a specification, in the order in which it is checked. -/
def conditions (text : List Char) : List Condition :=
  isJson text :: isObject text :: memberConditions (members text) (parameterTexts text)

/-! ## Values of a type -/

theorem mapM_text?_eq_some {items : List Json} {ss : List String} :
    items.mapM Json.text? = some ss ↔ items = ss.map .ofString := by
  induction items generalizing ss with
  | nil => simp [eq_comm]
  | cons item items ih =>
    rw [List.mapM_cons, eq_comm (b := ss.map _), List.map_eq_cons_iff]
    simp only [bind, Option.bind_eq_some_iff, Json.text?_eq_some, ih, pure, Option.some.injEq]
    constructor
    · rintro ⟨s, rfl, rest, rfl, rfl⟩
      exact ⟨s, rest, rfl, rfl, rfl⟩
    · rintro ⟨s, rest, rfl, rfl, rfl⟩
      exact ⟨s, rfl, rest, rfl, rfl⟩

theorem texts?_eq_some {value : Json} {ss : List String} :
    texts? value = some ss ↔ value = .array (ss.map .ofString) := by
  cases value with
  | array items => simp [texts?, Json.items?, mapM_text?_eq_some]
  | _ => simp [texts?, Json.items?]

theorem exists_text? (value : Json) : (∃ s, value.text? = some s) ↔ value.HasType .string := by
  simp only [Json.HasType, Json.text?_eq_some]

theorem exists_texts? (value : Json) : (∃ ss, texts? value = some ss) ↔ value.HasType .strings := by
  simp only [Json.HasType, texts?_eq_some]

theorem exists_word? (value : Json) : (∃ n, value.word? = some n) ↔ value.HasType .natural := by
  simp only [Json.HasType, Json.word?_eq_some, Nat.reducePow]

/-! ## Fields -/

section Members

variable {members : Members} {field : Field}

theorem present_iff : Present members field ↔ ∃ value, field? members field = some value := by
  have hnull (value : Json) : (!value.isNull) = true ↔ value ≠ .null := by
    cases value <;> simp [Json.isNull]
  simp only [Present, field?, Option.filter_eq_some_iff, hnull]

theorem mem_missing :
    field ∈ missing members ↔ field ∈ Field.required ∧ ¬ Present members field := by
  rw [missing, List.mem_filter, present_iff, Option.isNone_iff_eq_none,
    Option.eq_none_iff_forall_ne_some, not_exists]

theorem checks_required : Checks [complete members] (checkRequired members) := by
  have hnil : (missing members).isEmpty = true ↔
      ∀ field ∈ Field.required, Present members field := by
    simp only [List.isEmpty_iff, List.eq_nil_iff_forall_not_mem, mem_missing, not_and, not_not]
  refine checks_reportedBy (fun hall => ⟨(), ?_⟩) fun hnot => ?_
  · rw [checkRequired, if_pos (hnil.mpr hall)]
  · rw [checkRequired, if_neg (mt hnil.mp hnot)]

theorem present_of_checkRequired {u : Unit} (h : checkRequired members = .ok u) :
    ∀ field ∈ Field.required, Present members field :=
  checks_required.ok.mp ⟨u, h⟩ (complete members) (List.mem_singleton_self _)

theorem typedField_eq_ok {α : Type} {expected : Expected} {read : Json → Option α} {a : α} :
    typedField members field expected read = .ok a ↔
      (field? members field).bind read = some a := by
  unfold typedField
  split
  · next b hb => rw [hb, Except.ok.injEq, Option.some.injEq]
  · next hnone => simp [hnone]

/-- A field that has a value is checked for its type. -/
theorem checks_typedField {α : Type} {read : Json → Option α}
    (hread : ∀ value, (∃ a, read value = some a) ↔ value.HasType field.expected)
    (hpresent : Present members field) :
    Checks [typed members field] (typedField members field field.expected read) := by
  obtain ⟨value, hvalue⟩ := present_iff.mp hpresent
  refine checks_reportedBy (fun htyped => ?_) fun hnot => ?_
  · obtain ⟨a, ha⟩ := (hread value).mpr (htyped value hvalue)
    exact ⟨a, typedField_eq_ok.mpr (by rw [hvalue, Option.bind_some, ha])⟩
  · rw [typedField, hvalue, Option.bind_some]
    cases ha : read value with
    | none => rfl
    | some a =>
      refine absurd (fun other hother => ?_) hnot
      obtain rfl : value = other := Option.some.inj (hvalue.symm.trans hother)
      exact (hread value).mp ⟨a, ha⟩

/-- The seed is checked for its type if there is one. -/
theorem checks_seedField : Checks [typed members .seed] (seedField members) := by
  unfold seedField
  split
  · next hnone =>
    refine checks_reportedBy (fun _ => ⟨none, rfl⟩) fun hnot => ?_
    exact absurd (fun value hvalue => by rw [hnone] at hvalue; cases hvalue) hnot
  · next value hvalue =>
    exact (checks_typedField exists_word? (present_iff.mpr ⟨value, hvalue⟩)).map

theorem strings_eq {ss : List String} (h : stringsField members field = .ok ss) :
    strings members field = ss := by
  rw [strings, typedField_eq_ok.mp h, Option.getD_some]

theorem checks_lengths {types exhaustive random : List String}
    (htypes : stringsField members .types = .ok types)
    (hexhaustive : stringsField members .exhaustive = .ok exhaustive)
    (hrandom : stringsField members .random = .ok random) :
    Checks [aligned members] (checkLengths types exhaustive random) := by
  rw [aligned, strings_eq htypes, strings_eq hexhaustive, strings_eq hrandom]
  exact checks_reportedBy (fun h => ⟨(), if_pos h⟩) fun h => if_neg h

end Members

/-! ## Parameters -/

theorem readParameter_ok_iff (p : ParameterTexts) :
    (∃ tree, readParameter p.1.toList p.2.1.toList p.2.2.toList = .ok tree) ↔ Acceptable p := by
  simp only [readParameter, readTree, bind_eq_ok, DomainTree.inField_eq_ok]
  constructor
  · rintro ⟨_, tree, ⟨shape, hshape, htree⟩, _, hcheck, -⟩
    exact ⟨shape, tree, hshape, htree, hcheck⟩
  · rintro ⟨shape, tree, hshape, htree, hcheck⟩
    exact ⟨tree, tree, ⟨shape, hshape, htree⟩, (), hcheck, rfl⟩

theorem readParameter_error_iff (p : ParameterTexts) (e : SpecError) :
    readParameter p.1.toList p.2.1.toList p.2.2.toList = .error e ↔
      ∃ field cause, e = .inField field cause ∧ ParameterFault p field cause := by
  simp only [readParameter, readTree, bind_eq_error, bind_eq_ok, DomainTree.inField_eq_ok,
    DomainTree.inField_eq_error]
  constructor
  · rintro ((⟨cause, hcause, rfl⟩ | ⟨shape, hshape, htree⟩) | ⟨tree, ⟨shape, hshape, htree⟩, hrest⟩)
    · exact ⟨.types, cause, rfl, .type hcause⟩
    · obtain ⟨field, cause, -, -, rfl⟩ := DomainTree.read_errors shape _ _ e htree
      exact ⟨field, cause, rfl, .domain hshape htree⟩
    · rcases hrest with ⟨cause, hcause, rfl⟩ | ⟨_, -, hpure⟩
      · exact ⟨.exhaustive, cause, rfl, .size hshape htree hcause⟩
      · cases hpure
  · rintro ⟨field, cause, rfl, hfault⟩
    cases hfault with
    | type hcause => exact .inl (.inl ⟨cause, hcause, rfl⟩)
    | domain hshape htree => exact .inl (.inr ⟨_, hshape, htree⟩)
    | size hshape htree hcause => exact .inr ⟨_, ⟨_, hshape, htree⟩, .inl ⟨cause, hcause, rfl⟩⟩

theorem checks_readParameter (p : ParameterTexts) (index : Nat) :
    Checks [parameter p index]
      ((readParameter p.1.toList p.2.1.toList p.2.2.toList).mapError (.atParameter index)) := by
  refine checks_singleton ?_ fun e => ?_
  · simp only [mapError_eq_ok]
    exact readParameter_ok_iff p
  · simp only [mapError_eq_error, readParameter_error_iff]
    constructor
    · rintro ⟨_, ⟨field, cause, rfl, hfault⟩, rfl⟩
      exact ⟨field, cause, rfl, hfault⟩
    · rintro ⟨field, cause, rfl, hfault⟩
      exact ⟨_, ⟨field, cause, rfl, hfault⟩, rfl⟩

theorem readParameters_cons (index : Nat) (type x r : String)
    (types exhaustive random : List String) :
    readParameters index (type :: types) (x :: exhaustive) (r :: random) =
      (readParameter type.toList x.toList r.toList).mapError (.atParameter index) >>= fun tree =>
        (readParameters (index + 1) types exhaustive random).map (tree :: ·) := by
  rw [readParameters]
  cases readParameter type.toList x.toList r.toList <;> rfl

/-- The parameters are checked from first to last. -/
theorem checks_readParameters (index : Nat) (types exhaustive random : List String) :
    Checks (((types.zip (exhaustive.zip random)).zipIdx index).map fun p => parameter p.1 p.2)
      (readParameters index types exhaustive random) := by
  induction types generalizing index exhaustive random with
  | nil => exact checks_nil []
  | cons type types ih =>
    cases exhaustive with
    | nil => exact checks_nil []
    | cons x exhaustive =>
      cases random with
      | nil => exact checks_nil []
      | cons r random =>
        rw [readParameters_cons]
        exact (checks_readParameter (type, x, r) index).bind fun tree _ =>
          (ih (index + 1) exhaustive random).map

/-! ## The base set -/

theorem foldl_mul_eq (trees : List DomainTree) (size : Nat) :
    trees.foldl (fun acc t => Count.mul acc t.exhaustiveCount) (min size Count.cap) =
      min (size * (trees.map DomainTree.exhaustiveCount).prod) Count.cap := by
  induction trees generalizing size with
  | nil => simp
  | cons t trees ih =>
    rw [List.foldl_cons, Count.mul_min_cap, ih, List.map_cons, List.prod_cons, Nat.mul_assoc]

theorem baseSetSize_eq (trees : List DomainTree) :
    DomainTree.baseSetSize trees =
      min (trees.map DomainTree.exhaustiveCount).prod Count.cap := by
  have hfold := foldl_mul_eq trees 1
  rwa [Nat.one_mul] at hfold

theorem checks_baseSet {parameters : List ParameterTexts} {trees : List DomainTree}
    (h : List.Forall₂ Describes parameters trees) :
    Checks [bounded parameters] (checkBaseSet trees) := by
  have hunique (trees' : List DomainTree) (h' : List.Forall₂ Describes parameters trees') :
      trees' = trees := describes_rightUnique.forall₂ h' h
  have hholds : (bounded parameters).holds ↔ DomainTree.baseSetSize trees ≤ maxExhaustive := by
    rw [baseSetSize_eq, (Count.counts_min _).le_iff]
    exact ⟨fun hall => hall trees h, fun hle trees' h' => hunique trees' h' ▸ hle⟩
  by_cases hle : DomainTree.baseSetSize trees ≤ maxExhaustive
  · rw [checkBaseSet_eq_ok.mpr hle]
    exact (checks_nil ()).cons (hholds.mpr hle)
  · have herror : checkBaseSet trees =
        .error (.tooManyValues .baseSet (DomainTree.baseSetSize trees)) :=
      if_pos (Nat.not_le.mp hle)
    rw [herror]
    refine checks_error (mt hholds.mp hle) fun e => ?_
    rw [baseSetSize_eq]
    constructor
    · rintro ⟨trees', h', rfl⟩
      rw [hunique trees' h']
    · rintro rfl
      exact ⟨trees, h, rfl⟩

/-! ## Objects and texts -/

theorem checks_ofMembers {text : List Char} {members : Members}
    (hmembers : Json.readSound? text = some (.object members)) :
    Checks (memberConditions members (parameterTexts text)) (ofMembers members) := by
  refine checks_required.bind fun _ hrequired => ?_
  -- every required field has a value from here on, and only its type is in question
  have hpresent := present_of_checkRequired hrequired
  refine (checks_typedField exists_text? (hpresent .function (by decide))).bind fun function _ => ?_
  refine (checks_typedField exists_texts? (hpresent .types (by decide))).bind fun types htypes => ?_
  refine (checks_typedField exists_texts? (hpresent .exhaustive (by decide))).bind
    fun exhaustive hexhaustive => ?_
  refine (checks_typedField exists_texts? (hpresent .random (by decide))).bind
    fun random hrandom => ?_
  refine (checks_typedField exists_word? (hpresent .numRandom (by decide))).bind
    fun numRandom _ => ?_
  refine checks_seedField.bind fun seed _ => ?_
  refine (checks_lengths htypes hexhaustive hrandom).bind fun _ _ => ?_
  rw [parameterTexts_eq hmembers htypes hexhaustive hrandom]
  refine (checks_readParameters 0 types exhaustive random).bind fun trees htrees => ?_
  exact (checks_baseSet (readParameters_eq_ok htrees).1).bind fun _ _ => checks_nil _

theorem checks_read (text : List Char) : Checks (conditions text) (read text) := by
  unfold read
  split
  · next hnone =>
    refine checks_error ?_ fun _ => Iff.rfl
    rintro ⟨json, hjson⟩
    rw [hnone] at hjson
    cases hjson
  · next m hmembers =>
    have hm : members text = m := by rw [members, hmembers]
    rw [conditions, hm]
    exact .cons ⟨_, hmembers⟩ (.cons ⟨m, hmembers⟩ (checks_ofMembers hmembers))
  · next json hother hjson =>
    refine .cons ⟨json, hjson⟩ (checks_error ?_ fun _ => Iff.rfl)
    rintro ⟨m, hm⟩
    exact hother m (Option.some.inj (hjson.symm.trans hm))

/-! ## What is reported -/

theorem missing_of_read_error {text : List Char} {fields : List Field}
    (h : read text = .error (.missingFields fields)) : fields = missing (members text) := by
  obtain ⟨c, hc, hfault⟩ := (((checks_read text).error _).mp h).exists_mem
  simp only [conditions, memberConditions, List.mem_cons, List.mem_append, List.mem_map,
    List.not_mem_nil, or_false] at hc
  rcases hc with rfl | rfl | (((rfl | ⟨field, -, rfl⟩) | rfl) | ⟨p, -, rfl⟩) | rfl
  · cases hfault
  · cases hfault
  · cases hfault
    rfl
  · cases hfault
  · cases hfault
  · obtain ⟨field, cause, heq, -⟩ := hfault
    cases heq
  · obtain ⟨trees, -, heq⟩ := hfault
    cases heq

/-- Nothing but a parameter is reported with the place of a parameter. -/
theorem firstViolated_parameters {text : List Char} {index : Nat} {e : SpecError}
    (h : FirstViolated (conditions text) (.atParameter index e)) :
    FirstViolated ((parameterTexts text).zipIdx.map fun p => parameter p.1 p.2)
      (.atParameter index e) := by
  rw [conditions, memberConditions, firstViolated_cons, firstViolated_cons, firstViolated_append,
    firstViolated_append] at h
  rcases h with ⟨-, hfault⟩ | ⟨-, ⟨-, hfault⟩ | ⟨-, (hbefore | ⟨-, h⟩) | ⟨-, hafter⟩⟩⟩
  · cases hfault
  · cases hfault
  · obtain ⟨c, hc, hfault⟩ := hbefore.exists_mem
    simp only [List.mem_cons, List.mem_append, List.mem_map, List.not_mem_nil, or_false] at hc
    rcases hc with (rfl | ⟨field, -, rfl⟩) | rfl
    · cases hfault
    · cases hfault
    · cases hfault
  · exact h
  · obtain ⟨c, hc, hfault⟩ := hafter.exists_mem
    cases List.mem_singleton.mp hc
    obtain ⟨trees, -, heq⟩ := hfault
    cases heq

theorem parameter_of_read_error {text : List Char} {index : Nat} {e : SpecError}
    (h : read text = .error (.atParameter index e)) :
    ∃ p field cause, (parameterTexts text)[index]? = some p ∧
      (∀ j < index, ∀ q, (parameterTexts text)[j]? = some q → Acceptable q) ∧
      e = .inField field cause ∧ ParameterFault p field cause := by
  have hviolated := firstViolated_parameters (((checks_read text).error _).mp h)
  obtain ⟨i, c, hc, hfault, hbefore⟩ := hviolated.exists_getElem?
  have hget (j : Nat) (q : ParameterTexts) (hq : (parameterTexts text)[j]? = some q) :
      ((parameterTexts text).zipIdx.map fun p => parameter p.1 p.2)[j]? = some (parameter q j) := by
    rw [List.getElem?_map, List.getElem?_zipIdx, hq, Nat.zero_add]
    rfl
  rw [List.getElem?_map, List.getElem?_zipIdx, Option.map_map, Nat.zero_add,
    Option.map_eq_some_iff] at hc
  obtain ⟨p, hp, rfl⟩ := hc
  obtain ⟨field, cause, heq, hfault⟩ := hfault
  cases heq
  exact ⟨p, field, cause, hp, fun j hj q hq => hbefore j hj _ (hget j q hq), rfl, hfault⟩

theorem ParameterFault.field_mem {p : ParameterTexts} {field : Field} {cause : SpecError}
    (h : ParameterFault p field cause) : field ∈ [Field.types, .exhaustive, .random] := by
  cases h with
  | type => decide
  | domain _ htree =>
    obtain ⟨_, _, hfield, -, heq⟩ := DomainTree.read_errors _ _ _ _ htree
    cases heq
    rcases hfield with rfl | rfl
    · decide
    · decide
  | size => decide

theorem ParameterFault.root_eq {p : ParameterTexts} {field : Field} {cause : SpecError}
    (h : ParameterFault p field cause) : cause.root = cause := by
  cases h with
  | type hcause => exact (Shape.read_errors _ _ hcause).root_eq
  | domain _ htree =>
    obtain ⟨_, _, -, hcause, heq⟩ := DomainTree.read_errors _ _ _ _ htree
    cases heq
    exact hcause.root_eq
  | size _ _ hcause =>
    obtain ⟨n, -, rfl⟩ := DomainTree.checkExpansion_eq_error hcause
    rfl

/-- A text is read as a specification if all conditions hold of it, and otherwise the error is
that of the first that does not.  The fields that are reported missing are the required ones
without a value, in their order.  An error of a parameter is one of the first that is not in
order, and names the parameter and the field, and nothing else, around its cause. -/
theorem read_in_order (text : List Char) :
    ((∃ spec, read text = .ok spec) ↔ ∀ c ∈ conditions text, c.holds) ∧
    (∀ e, read text = .error e ↔ FirstViolated (conditions text) e) ∧
    (∀ fields, read text = .error (.missingFields fields) →
      fields.Sublist Field.required ∧
        ∀ field, field ∈ fields ↔ field ∈ Field.required ∧ ¬ Present (members text) field) ∧
    ∀ index e, read text = .error (.atParameter index e) →
      ∃ p field cause, (parameterTexts text)[index]? = some p ∧
        (∀ j < index, ∀ q, (parameterTexts text)[j]? = some q → Acceptable q) ∧
        e = .inField field cause ∧ cause.root = cause ∧
        field ∈ [Field.types, .exhaustive, .random] ∧ ParameterFault p field cause := by
  refine ⟨(checks_read text).ok, (checks_read text).error, ?_, ?_⟩
  · intro fields h
    rw [missing_of_read_error h]
    exact ⟨List.filter_sublist, fun _ => mem_missing⟩
  · intro index e h
    obtain ⟨p, field, cause, hp, hbefore, rfl, hfault⟩ := parameter_of_read_error h
    exact ⟨p, field, cause, hp, hbefore, rfl, hfault.root_eq, hfault.field_mem, hfault⟩

/-- A text without four of the required fields, one of them with `null`; what the fifth holds
is of the wrong type. -/
def hollowText : List Char :=
  "\x7b\"fname\": null, \"types\": 3\x7d".toList

/-- A text of three parameters, of which the second has a set of lists and the third an unknown
type. -/
def unhashableText : List Char :=
  ("\x7b\"fname\": \"f\", \"types\": [\"int\", \"set(list(int))\", \"flot\"], " ++
    "\"exhaustive domain\": [\"1~2\", \"1(1(1~2))\", \"1\"], " ++
    "\"random domain\": [\"3~4\", \"1(1(3~4))\", \"2\"], \"num random\": 5\x7d").toList

theorem read_in_order_hollow :
    (∀ c ∈ conditions pairsText, c.holds) ∧
    (read hollowText = .error (.missingFields [.function, .exhaustive, .random, .numRandom]) ∧
      ¬ Present (members hollowText) .function ∧ Present (members hollowText) .types) ∧
    ∃ cause, read unhashableText = .error (.atParameter 1 cause) ∧
      ∃ p field root, (parameterTexts unhashableText)[1]? = some p ∧
        (∀ j < 1, ∀ q, (parameterTexts unhashableText)[j]? = some q → Acceptable q) ∧
        cause = .inField field root ∧ root.root = root ∧
        field ∈ [Field.types, .exhaustive, .random] ∧ ParameterFault p field root := by
  obtain ⟨spec, hpairs, -⟩ := read_pairsText
  have hhollow : read hollowText =
      .error (.missingFields [.function, .exhaustive, .random, .numRandom]) :=
    map_eq_error.mp (by decide +kernel : (read hollowText).map (fun _ => ()) = _)
  have hunhashable : read unhashableText =
      .error (.atParameter 1 (.inField .types (.unhashable .set .list))) :=
    map_eq_error.mp (by decide +kernel : (read unhashableText).map (fun _ => ()) = _)
  obtain ⟨hok, -, -, -⟩ := read_in_order pairsText
  obtain ⟨-, -, hmissing, -⟩ := read_in_order hollowText
  obtain ⟨-, -, -, hparameter⟩ := read_in_order unhashableText
  refine ⟨hok.mp ⟨spec, hpairs⟩, ⟨hhollow, ?_, ?_⟩, _, hunhashable, hparameter 1 _ hunhashable⟩
  · exact (((hmissing _ hhollow).2 .function).mp (by decide)).2
  · by_contra hnot
    exact absurd (((hmissing _ hhollow).2 .types).mpr ⟨by decide, hnot⟩) (by decide)

end Spec

end Divergence
