/-
# `Divergence.Proofs.Documents` — what is written as a document is read back

Outcomes, implementations and settings are written as documents of their own kinds:
records, variants, and in failures a record that says of which kind it is.  Writers and
readers of a type belong together if what is written can be kept in a text, is read back,
and only values that can be written are read (`Lawful`).  The laws of a type are put
together from those of its parts, and they carry over to texts (`Lawful.roundTrips`).

Not all values can be written: durations and seeds have to be 64-bit words, and exit codes
32-bit integers.  Texts are any texts.
-/
import Divergence.Implementation.Document
import Divergence.Outcome.Document
import Divergence.Proofs.CompactText

namespace Divergence

/-! ## Records -/

namespace Json

variable {members : List (String × Json)}

theorem definite_record (h : ∀ m ∈ members, m.2.Definite) : Definite (.record members) := by
  refine .object (fun m hm => ?_) (fun m hm => ?_)
  · obtain ⟨member, -, rfl⟩ := List.mem_map.mp hm
    rfl
  · obtain ⟨member, hmember, rfl⟩ := List.mem_map.mp hm
    exact h member hmember

/-- The members of a record as those of an object. -/
def named (members : List (String × Json)) : List (Option String × Json) :=
  members.map fun (name, value) => (some name, value)

theorem valuesNamed_of_not_mem {name : String} (h : name ∉ members.map Prod.fst) :
    valuesNamed (named members) name = [] := by
  induction members with
  | nil => rfl
  | cons m members ih =>
    obtain ⟨hne, hnot⟩ := not_or.mp (List.mem_cons.not.mp h)
    have hskip : valuesNamed (named (m :: members)) name = valuesNamed (named members) name := by
      simp [valuesNamed, named, Ne.symm hne]
    rw [hskip, ih hnot]

/-- The only value with a name of a record is that of the member. -/
theorem onlyNamed?_of_mem (h : (members.map Prod.fst).Nodup) {m : String × Json}
    (hm : m ∈ members) : onlyNamed? (named members) m.1 = some (some m.2) := by
  have hvalues : valuesNamed (named members) m.1 = [m.2] := by
    induction members with
    | nil => cases hm
    | cons first members ih =>
      obtain ⟨hfirst, hnodup⟩ := List.nodup_cons.mp h
      rcases List.mem_cons.mp hm with rfl | hrest
      · have hkeep : valuesNamed (named (m :: members)) m.1 =
            m.2 :: valuesNamed (named members) m.1 := by
          simp [valuesNamed, named]
        rw [hkeep, valuesNamed_of_not_mem hfirst]
      · have hne : first.1 ≠ m.1 := fun heq => hfirst (heq ▸ List.mem_map_of_mem hrest)
        have hskip : valuesNamed (named (first :: members)) m.1 =
            valuesNamed (named members) m.1 := by
          simp [valuesNamed, named, hne]
        rw [hskip, ih hnodup hrest]
  rw [onlyNamed?, hvalues]

theorem mapM_onlyNamed? {all : List (Option String × Json)}
    (h : ∀ m ∈ members, onlyNamed? all m.1 = some (some m.2)) :
    (members.map Prod.fst).mapM (onlyNamed? all) = some (members.map fun m => some m.2) := by
  induction members with
  | nil => rfl
  | cons m members ih =>
    obtain ⟨hm, hmembers⟩ := List.forall_mem_cons.mp h
    rw [List.map_cons, List.mapM_cons, hm, ih hmembers]
    rfl

/-- A record has the values that it is made of, if no two of its names are the same. -/
theorem record?_record (members : List (String × Json)) (h : (members.map Prod.fst).Nodup) :
    (record members).record? (members.map Prod.fst) = some (members.map fun m => some m.2) := by
  have hnames : (named members).all (fun m => m.1.isSome) = true := by
    simp [named]
  show (if (named members).all (fun m => m.1.isSome) then
    (members.map Prod.fst).mapM (onlyNamed? (named members)) else none) = _
  rw [if_pos hnames, mapM_onlyNamed? fun m hm => onlyNamed?_of_mem h hm]

theorem soundMembers_named {room : Nat} (h : ∀ m ∈ members, m.2.sound room = true) :
    soundMembers room (named members) = true := by
  induction members with
  | nil => rfl
  | cons m members ih =>
    obtain ⟨hm, hmembers⟩ := List.forall_mem_cons.mp h
    simp only [named] at ih
    simp [named, soundMembers, hm, ih hmembers]

end Json

/-! ## Documents of a type -/

/-- Values of a type that are written as documents, and documents that are read as values.
The values that fit into documents are written without loss and read back, and no others are
read. -/
structure Lawful {α : Type} (write : α → Json) (read? : Json → Option α) (Fits : α → Prop) :
    Prop where
  definite : ∀ a, Fits a → (write a).Definite
  read_write : ∀ a, Fits a → read? (write a) = some a
  fits : ∀ j a, read? j = some a → Fits a

/-- Values that fit are read back from the compact text that they are written as.  A value that
was read from any text is also read from the text that it is written as then. -/
structure RoundTrips {α : Type} (write : α → Json) (read? : Json → Option α) (Fits : α → Prop) :
    Prop where
  written : ∀ a, Fits a → (Json.read? (write a).compact).bind read? = some a
  accepted : ∀ text a, (Json.read? text).bind read? = some a →
    (Json.read? (write a).compact).bind read? = some a

theorem Lawful.roundTrips {α : Type} {write : α → Json} {read? : Json → Option α}
    {Fits : α → Prop} (h : Lawful write read? Fits) : RoundTrips write read? Fits := by
  have hwritten : ∀ a, Fits a → (Json.read? (write a).compact).bind read? = some a := by
    intro a ha
    rw [Json.read?_compact (h.definite a ha), Option.bind_some, h.read_write a ha]
  refine ⟨hwritten, fun text a hread => ?_⟩
  obtain ⟨j, -, hj⟩ := Option.bind_eq_some_iff.mp hread
  exact hwritten a (h.fits j a hj)

/-! ## Numbers -/

namespace Json

/-- The range of 32-bit integers with a sign. -/
def FitsInt32 (i : Int) : Prop :=
  -2 ^ 31 ≤ i ∧ i < 2 ^ 31

theorem lawful_word : Lawful ofNat word? (· < 2 ^ 64) where
  definite _ hn := .integer (by omega) (by omega)
  read_write _ hn := word?_eq_some.mpr ⟨hn, rfl⟩
  fits _ _ h := (word?_eq_some.mp h).1

theorem lawful_int32 : Lawful (fun i => .number (.integer i)) int32? FitsInt32 where
  definite _ hi := by
    obtain ⟨hlow, hhigh⟩ := hi
    exact .integer (by omega) (by omega)
  read_write _ hi := int32?_eq_some.mpr ⟨hi, rfl⟩
  fits _ _ h := (int32?_eq_some.mp h).1

end Json

/-! ## Outcomes -/

/-- Durations are 64-bit numbers, and exit codes 32-bit integers. -/
def Failure.Fits : Failure → Prop
  | .raised _ _ => True
  | .timeout afterMs => afterMs < 2 ^ 64
  | .crashed code _ => ∀ c ∈ code, Json.FitsInt32 c

def Outcome.Fits : Outcome → Prop
  | .value _ => True
  | .failure f => f.Fits

namespace Failure

theorem fits_of_code? {value : Option Json} {code : Option Int} (h : code? value = some code) :
    ∀ c ∈ code, Json.FitsInt32 c := by
  intro c hc
  unfold code? at h
  split at h
  · cases h
    cases hc
  · cases h
    cases hc
  · obtain ⟨i, hi, rfl⟩ := Option.map_eq_some_iff.mp h
    obtain rfl : i = c := Option.some.inj hc
    exact Json.lawful_int32.fits _ i hi

theorem fits_of_ofKind? {kind : String} {content : Json} {f : Failure}
    (h : ofKind? kind content = some f) : f.Fits := by
  unfold ofKind? at h
  split at h
  · split at h
    · simp only [bind, Option.bind_eq_some_iff] at h
      obtain ⟨exception, -, message, -, heq⟩ := h
      cases heq
      trivial
    · cases h
  · split at h
    · split at h
      · obtain ⟨afterMs, hafter, heq⟩ := Option.bind_eq_some_iff.mp h
        cases heq
        exact Json.lawful_word.fits _ afterMs hafter
      · cases h
    · split at h
      · split at h
        · simp only [bind, Option.bind_eq_some_iff] at h
          obtain ⟨code, hcode, stderr, -, heq⟩ := h
          cases heq
          exact fits_of_code? hcode
        · cases h
      · cases h

/-- The document of an exit code. -/
def codeJson (code : Option Int) : Json :=
  (code.map fun c => Json.number (.integer c)).getD .null

theorem definite_codeJson {code : Option Int} (h : ∀ c ∈ code, Json.FitsInt32 c) :
    (codeJson code).Definite := by
  cases code with
  | none => exact .null
  | some c => exact Json.lawful_int32.definite c (h c rfl)

theorem code?_codeJson {code : Option Int} (h : ∀ c ∈ code, Json.FitsInt32 c) :
    code? (some (codeJson code)) = some code := by
  cases code with
  | none => rfl
  | some c =>
    show (Json.number (.integer c)).int32?.map some = _
    rw [Json.lawful_int32.read_write c (h c rfl)]
    rfl

/-- A record with its kind as first member is told apart from the record of the others. -/
theorem kind?_record {kind : String} {members : List (String × Json)}
    (h : ("kind" :: members.map Prod.fst).Nodup) :
    kind? (.record (("kind", .ofString kind) :: members)) = some (kind, .record members) := by
  have hnodup : ((("kind", Json.ofString kind) :: members).map Prod.fst).Nodup := h
  have honly := Json.onlyNamed?_of_mem hnodup List.mem_cons_self
  have hall : ∀ m ∈ Json.named members, decide (m.1 ≠ some "kind") = true := by
    intro m hm
    obtain ⟨member, hmember, rfl⟩ := List.mem_map.mp hm
    refine decide_eq_true fun heq => (List.nodup_cons.mp h).1 ?_
    exact Option.some.inj heq ▸ List.mem_map_of_mem hmember
  have hothers : (Json.named (("kind", .ofString kind) :: members)).filter
      (fun m => m.1 ≠ some "kind") = Json.named members := List.filter_eq_self.mpr hall
  show (do
    let value ← (← Json.onlyNamed? (Json.named (("kind", .ofString kind) :: members)) "kind")
    return (← value.text?, Json.object ((Json.named (("kind", .ofString kind) :: members)).filter
      fun m => m.1 ≠ some "kind"))) = _
  rw [honly, hothers]
  rfl

theorem ofJson?_record {room : Nat} {kind : String} {members : List (String × Json)}
    (h : ("kind" :: members.map Prod.fst).Nodup) (hsound : ∀ m ∈ members, m.2.sound room = true) :
    ofJson? (room + 1) (.record (("kind", .ofString kind) :: members)) =
      ofKind? kind (.record members) := by
  have hroom : (Json.record (("kind", .ofString kind) :: members)).sound (room + 1) = true :=
    Json.soundMembers_named (List.forall_mem_cons.mpr ⟨rfl, hsound⟩)
  rw [ofJson?, if_pos hroom, kind?_record h]
  rfl

theorem definite_toJson {f : Failure} (h : f.Fits) : f.toJson.Definite := by
  cases f with
  | raised exception message =>
    refine Json.definite_record ?_
    simp only [List.forall_mem_cons]
    exact ⟨.string _, .string _, .string _, List.forall_mem_nil _⟩
  | timeout afterMs =>
    refine Json.definite_record ?_
    simp only [List.forall_mem_cons]
    exact ⟨.string _, Json.lawful_word.definite afterMs h, List.forall_mem_nil _⟩
  | crashed code stderr =>
    refine Json.definite_record ?_
    simp only [List.forall_mem_cons]
    exact ⟨.string _, definite_codeJson h, .string _, List.forall_mem_nil _⟩

theorem read_toJson {f : Failure} (h : f.Fits) (room : Nat) :
    ofJson? (room + 1) f.toJson = some f := by
  cases f with
  | raised exception message =>
    have hcontent : (Json.record [("exception", .ofString exception),
        ("message", .ofString message)]).record? ["exception", "message"] =
          some [some (.ofString exception), some (.ofString message)] :=
      Json.record?_record _ (by simp)
    rw [toJson, ofJson?_record (by simp) (by simp [Json.sound, Json.ofString]), ofKind?,
      if_pos rfl, hcontent]
    rfl
  | timeout afterMs =>
    have hcontent : (Json.record [("after_ms", .ofNat afterMs)]).record? ["after_ms"] =
        some [some (.ofNat afterMs)] := Json.record?_record _ (by simp)
    rw [toJson, ofJson?_record (by simp) (by simp [Json.sound, Json.ofNat]), ofKind?,
      if_neg (by decide), if_pos rfl, hcontent]
    show ((Json.ofNat afterMs).word? >>= _) = _
    rw [Json.lawful_word.read_write afterMs h]
    rfl
  | crashed code stderr =>
    have hcontent : (Json.record [("code", codeJson code), ("stderr", .ofString stderr)]).record?
        ["code", "stderr"] = some [some (codeJson code), some (.ofString stderr)] :=
      Json.record?_record _ (by simp)
    have hsound : (codeJson code).sound room = true := by
      cases code <;> rfl
    have hkind : ofJson? (room + 1) (toJson (.crashed code stderr)) =
        ofKind? "crashed" (.record [("code", codeJson code), ("stderr", .ofString stderr)]) := by
      refine ofJson?_record (by simp) ?_
      simp only [List.forall_mem_cons]
      exact ⟨hsound, rfl, List.forall_mem_nil _⟩
    rw [hkind, ofKind?, if_neg (by decide), if_neg (by decide), if_pos rfl, hcontent]
    show (code? (some (codeJson code)) >>= _) = _
    rw [code?_codeJson h]
    rfl

/-- A failure takes up one level of a document. -/
theorem lawful (room : Nat) : Lawful toJson (ofJson? (room + 1)) Fits where
  definite f hf := definite_toJson hf
  read_write f hf := read_toJson hf room
  fits j f h := by
    unfold ofJson? at h
    split at h
    · obtain ⟨⟨kind, content⟩, -, hkind⟩ := Option.bind_eq_some_iff.mp h
      exact fits_of_ofKind? hkind
    · cases h

end Failure

namespace Outcome

theorem variant?_record (name : String) (content : Json) :
    (Json.record [(name, content)]).variant? = some (name, some content) :=
  rfl

/-- An outcome takes up two levels, the second one for its failure. -/
theorem lawful (room : Nat) : Lawful toJson (ofJson? (room + 2)) Fits where
  definite o ho := by
    cases o with
    | value printed => exact Json.definite_record (List.forall_mem_singleton.mpr (.string _))
    | failure f =>
      exact Json.definite_record (List.forall_mem_singleton.mpr (Failure.definite_toJson ho))
  read_write o ho := by
    cases o with
    | value printed => rfl
    | failure f =>
      have hread := (Failure.lawful room).read_write f ho
      rw [toJson, ofJson?, variant?_record]
      show (Failure.ofJson? (room + 1) f.toJson).map Outcome.failure = _
      rw [hread]
      rfl
  fits j o h := by
    unfold ofJson? at h
    split at h
    · obtain ⟨printed, -, rfl⟩ := Option.map_eq_some_iff.mp h
      trivial
    · obtain ⟨f, hf, rfl⟩ := Option.map_eq_some_iff.mp h
      exact (Failure.lawful room).fits _ f hf
    · cases h

end Outcome

namespace OutcomeClass

theorem lawful : Lawful toJson ofJson? fun _ => True where
  definite c _ := by
    cases c with
    | value | timeout | crashed => exact .string _
    | raised exception => exact Json.definite_record (List.forall_mem_singleton.mpr (.string _))
  read_write c _ := by cases c <;> rfl
  fits _ _ _ := trivial

end OutcomeClass

namespace CandidateOutcome

/-- The outcome of a candidate fits if it fits as an outcome. -/
def Fits (c : CandidateOutcome) : Prop :=
  c.outcome.Fits

theorem lawful (room : Nat) : Lawful toJson (ofJson? (room + 3)) Fits where
  definite c hc := by
    refine Json.definite_record ?_
    simp only [List.forall_mem_cons]
    exact ⟨.string _, (Outcome.lawful room).definite c.outcome hc, List.forall_mem_nil _⟩
  read_write c hc := by
    have hrecord : c.toJson.record? ["name", "outcome"] =
        some [some (.ofString c.name), some c.outcome.toJson] := Json.record?_record _ (by simp)
    have houtcome := (Outcome.lawful room).read_write c.outcome hc
    rw [ofJson?, hrecord]
    show (Outcome.ofJson? (room + 2) c.outcome.toJson >>= _) = _
    rw [houtcome]
    rfl
  fits j c h := by
    unfold ofJson? at h
    split at h
    · simp only [bind, Option.bind_eq_some_iff] at h
      obtain ⟨name, -, outcome, houtcome, heq⟩ := h
      cases heq
      exact (Outcome.lawful room).fits _ outcome houtcome
    · cases h

end CandidateOutcome

/-! ## Implementations -/

theorem Implementation.lawful :
    Lawful Implementation.toJson Implementation.ofJson? fun _ => True where
  definite i _ := by
    refine Json.definite_record ?_
    simp only [List.forall_mem_cons]
    exact ⟨.string _, .string _, List.forall_mem_nil _⟩
  read_write i _ := by
    have hrecord : i.toJson.record? ["name", "path"] =
        some [some (.ofString i.name), some (.ofString i.path)] :=
      Json.record?_record _ (by simp)
    rw [ofJson?, hrecord]
    rfl
  fits _ _ _ := trivial

/-- The items of an array are read back one by one. -/
theorem Lawful.mapM_map {α : Type} {write : α → Json} {read? : Json → Option α}
    {Fits : α → Prop} (h : Lawful write read? Fits) {as : List α} (has : ∀ a ∈ as, Fits a) :
    (as.map write).mapM read? = some as := by
  induction as with
  | nil => rfl
  | cons a as ih =>
    obtain ⟨ha, hrest⟩ := List.forall_mem_cons.mp has
    rw [List.map_cons, List.mapM_cons, h.read_write a ha, ih hrest]
    rfl

theorem Implementations.lawful :
    Lawful Implementations.toJson Implementations.ofJson? fun _ => True where
  definite i _ := by
    refine Json.definite_record ?_
    simp only [List.forall_mem_cons]
    refine ⟨Implementation.lawful.definite i.reference trivial, .array ?_, List.forall_mem_nil _⟩
    exact List.forall_mem_map.mpr fun c _ => Implementation.lawful.definite c trivial
  read_write i _ := by
    have hrecord : i.toJson.record? ["reference", "candidates"] =
        some [some i.reference.toJson, some (.array (i.candidates.map Implementation.toJson))] :=
      Json.record?_record _ (by simp)
    rw [ofJson?, hrecord]
    show (Implementation.ofJson? i.reference.toJson >>= _) = _
    rw [Implementation.lawful.read_write i.reference trivial]
    show ((i.candidates.map Implementation.toJson).mapM Implementation.ofJson? >>= _) = _
    rw [Implementation.lawful.mapM_map fun _ _ => trivial]
    rfl
  fits _ _ _ := trivial

/-! ## Settings -/

def RunSettings.Fits (s : RunSettings) : Prop :=
  s.timeoutMs < 2 ^ 64 ∧ s.maxConcurrency < 2 ^ 64

theorem RunSettings.lawful : Lawful RunSettings.toJson RunSettings.ofJson? RunSettings.Fits where
  definite s hs := by
    refine Json.definite_record ?_
    simp only [List.forall_mem_cons]
    exact ⟨.string _, Json.lawful_word.definite s.timeoutMs hs.1,
      Json.lawful_word.definite s.maxConcurrency hs.2, List.forall_mem_nil _⟩
  read_write s hs := by
    have hrecord : s.toJson.record? ["python", "timeout_ms", "max_concurrency"] =
        some [some (.ofString s.interpreter), some (.ofNat s.timeoutMs),
          some (.ofNat s.maxConcurrency)] := Json.record?_record _ (by simp)
    rw [ofJson?, hrecord]
    dsimp only
    rw [Json.lawful_word.read_write s.timeoutMs hs.1,
      Json.lawful_word.read_write s.maxConcurrency hs.2]
    rfl
  fits j s h := by
    unfold ofJson? at h
    split at h
    · simp only [bind, Option.bind_eq_some_iff] at h
      obtain ⟨interpreter, -, timeoutMs, htimeout, maxConcurrency, hmax, heq⟩ := h
      cases heq
      exact ⟨Json.lawful_word.fits _ timeoutMs htimeout,
        Json.lawful_word.fits _ maxConcurrency hmax⟩
    · cases h

def SamplingSettings.Fits (s : SamplingSettings) : Prop :=
  ∀ n ∈ s.seed, n < 2 ^ 64

theorem SamplingSettings.lawful :
    Lawful SamplingSettings.toJson SamplingSettings.ofJson? SamplingSettings.Fits where
  definite s hs := by
    obtain ⟨seed⟩ := s
    refine Json.definite_record (List.forall_mem_singleton.mpr ?_)
    cases seed with
    | none => exact .null
    | some n => exact Json.lawful_word.definite n (hs n rfl)
  read_write s hs := by
    obtain ⟨seed⟩ := s
    cases seed with
    | none => rfl
    | some n =>
      have hrecord : (toJson ⟨some n⟩).record? ["seed"] = some [some (.ofNat n)] :=
        Json.record?_record _ (by simp)
      rw [ofJson?, hrecord]
      dsimp only [Json.ofNat]
      rw [← Json.ofNat, Json.lawful_word.read_write n (hs n rfl)]
      rfl
  fits j s h := by
    unfold ofJson? at h
    split at h
    · cases h
      rintro n ⟨⟩
    · cases h
      rintro n ⟨⟩
    · obtain ⟨m, hm, rfl⟩ := Option.map_eq_some_iff.mp h
      intro n hn
      obtain rfl : m = n := Option.some.inj hn
      exact Json.lawful_word.fits _ m hm
    · cases h

/-! ## Round trips -/

/-- All documents are read back from the compact text that they are written as, and documents
that are accepted in another form are read as the same value once they are written. -/
theorem documents_roundTrip :
    RoundTrips Outcome.toJson (Outcome.ofJson? Json.maxDepth) Outcome.Fits ∧
    RoundTrips Failure.toJson (Failure.ofJson? Json.maxDepth) Failure.Fits ∧
    RoundTrips OutcomeClass.toJson OutcomeClass.ofJson? (fun _ => True) ∧
    RoundTrips CandidateOutcome.toJson (CandidateOutcome.ofJson? Json.maxDepth)
      CandidateOutcome.Fits ∧
    RoundTrips Implementation.toJson Implementation.ofJson? (fun _ => True) ∧
    RoundTrips Implementations.toJson Implementations.ofJson? (fun _ => True) ∧
    RoundTrips RunSettings.toJson RunSettings.ofJson? RunSettings.Fits ∧
    RoundTrips SamplingSettings.toJson SamplingSettings.ofJson? SamplingSettings.Fits :=
  ⟨(Outcome.lawful 125).roundTrips, (Failure.lawful 126).roundTrips, OutcomeClass.lawful.roundTrips,
    (CandidateOutcome.lawful 124).roundTrips, Implementation.lawful.roundTrips,
    Implementations.lawful.roundTrips, RunSettings.lawful.roundTrips,
    SamplingSettings.lawful.roundTrips⟩

/-- What a process printed before it died: characters that have to be escaped, and the last
code points before the surrogates and of all. -/
def lastWords : String :=
  "\x00\"\\\u001f\n\ud7ff" ++ String.singleton (Char.ofNat 0x10FFFF)

theorem documents_roundTrip_extremes :
    (Failure.crashed (some (-0x80000000)) lastWords).Fits ∧
      (Failure.timeout 0xFFFFFFFFFFFFFFFF).Fits ∧
      (Json.read? (Failure.crashed (some (-0x80000000)) lastWords).toJson.compact).bind
        (Failure.ofJson? Json.maxDepth) = some (.crashed (some (-0x80000000)) lastWords) ∧
      (Json.read? (Failure.timeout 0xFFFFFFFFFFFFFFFF).toJson.compact).bind
        (Failure.ofJson? Json.maxDepth) = some (.timeout 0xFFFFFFFFFFFFFFFF) := by
  have hcrashed : (Failure.crashed (some (-0x80000000)) lastWords).Fits := by
    rintro c ⟨⟩
    exact ⟨by decide, by decide⟩
  have htimeout : (Failure.timeout 0xFFFFFFFFFFFFFFFF).Fits := by
    show 0xFFFFFFFFFFFFFFFF < 2 ^ 64
    decide
  have hfailure := documents_roundTrip.2.1
  exact ⟨hcrashed, htimeout, hfailure.written _ hcrashed, hfailure.written _ htimeout⟩

end Divergence
