/-
# `Divergence.Proofs.ArgumentTexts` — different inputs have different texts

The text of a value is its literal with nothing after it, so values of one text are
the same, and so are inputs.  A base set holds each input once; if its domains hold
finite doubles only, as those of a specification do, no two of its inputs are handed
to an implementation as one text, and no two entries of a report show one text.
-/
import Divergence.Proofs.Faithful
import Divergence.Proofs.Ingredients
import Divergence.Proofs.Positions
import Divergence.Proofs.Rendering
import Divergence.Worker.Executor

namespace Divergence

open Enumeration Ordered Sampling

/-! ## Values and inputs -/

theorem Value.text_inj {a b : Value} (ha : a.FloatsFinite) (hb : b.FloatsFinite)
    (h : a.text = b.text) : a = b := by
  have hliteral : a.literal ++ [] = b.literal ++ [] := by
    rw [List.append_nil, List.append_nil]
    exact String.ofList_injective h
  have hnothing : Value.Ends [] := fun c hc => by cases hc
  exact (Value.readable_literal ha b [] [] hb hnothing hnothing hliteral).1

/-- No double of the input is infinite or a NaN. -/
def Input.FloatsFinite (input : Input) : Prop :=
  ∀ v ∈ input, v.FloatsFinite

instance (input : Input) : Decidable input.FloatsFinite :=
  inferInstanceAs (Decidable (∀ v ∈ input, v.FloatsFinite))

theorem Input.arguments_inj {a b : Input} (ha : a.FloatsFinite) (hb : b.FloatsFinite)
    (h : a.arguments = b.arguments) : a = b :=
  Value.tuple.inj (Value.text_inj (Value.floatsFinite_tuple.mpr ha)
    (Value.floatsFinite_tuple.mpr hb) h)

theorem nodup_arguments {inputs : List Input} (hnodup : inputs.Nodup)
    (hfinite : ∀ input ∈ inputs, input.FloatsFinite) : (inputs.map Input.arguments).Nodup :=
  hnodup.map_on fun a ha b hb => Input.arguments_inj (hfinite a ha) (hfinite b hb)

/-! ## Domains of finite doubles -/

namespace DomainTree

def finiteFloats : DomainProperty where
  int _ := True
  float values := ∀ x ∈ values, x.isFinite = true
  bool _ := True
  length _ := True

theorem finiteFloats_ofRead : finiteFloats.OfRead where
  int _ := trivial
  float := representable_ofRead.float
  bool _ := trivial
  length _ := trivial

theorem Allows.floatsFinite {side : Side} {t : DomainTree} {v : Value} (hv : t.Allows side v)
    (h : t.Everywhere finiteFloats side) : v.FloatsFinite := by
  induction hv with
  | int => exact Value.floatsFinite_int _
  | float hx => exact Value.floatsFinite_float.mpr (h _ hx)
  | bool => exact Value.floatsFinite_bool _
  | str => exact Value.floatsFinite_str _
  | list _ ih => exact Value.floatsFinite_list.mpr fun x hx => ih x hx h.1
  | tuple _ ih => exact Value.floatsFinite_tuple.mpr fun x hx => ih x hx h.1
  | set _ _ ih => exact Value.floatsFinite_set.mpr fun x hx => ih x hx h.1
  | dict _ _ _ ihk ihv =>
    exact Value.floatsFinite_dict.mpr fun e he => ⟨ihk e he h.1, ihv e he h.2.1⟩

end DomainTree

/-! ## Base sets -/

namespace BaseSet

variable {σ : Type} {c : Chooser σ} {parameters : List DomainTree} {rounds : Nat} {s : σ}

/-- The values of an input, enumerated or drawn, are allowed by one side of the parameters. -/
theorem exists_side_allows {input : Input}
    (h : input ∈ DomainTree.inputs parameters ∨ input ∈ (randomInputs c parameters rounds s).1) :
    ∃ side, List.Forall₂ (DomainTree.Allows side) parameters input := by
  rcases h with hexhaustive | hrandom
  · exact ⟨.exhaustive, DomainTree.forall₂_allows_of_mem_inputs hexhaustive⟩
  · obtain ⟨s', hsample⟩ := exists_sample_of_mem_randomInputs hrandom
    exact ⟨.random, DomainTree.forall₂_allows_of_sampleInput hsample⟩

theorem floatsFinite_of_mem_generate
    (h : ∀ t ∈ parameters, ∀ side, t.Everywhere DomainTree.finiteFloats side) :
    ∀ input ∈ (generate c parameters rounds s).1, input.FloatsFinite := by
  intro input hinput v hv
  rw [generate_eq, (collects_eraseDups _ _).mem_iff] at hinput
  obtain ⟨side, hvalues⟩ := exists_side_allows hinput
  obtain ⟨t, ht, hallows⟩ := exists_mem_of_forall₂ hvalues hv
  exact hallows.floatsFinite (h t ht side)

theorem nodup_arguments_generate
    (h : ∀ t ∈ parameters, ∀ side, t.Everywhere DomainTree.finiteFloats side) :
    ((generate c parameters rounds s).1.map Input.arguments).Nodup := by
  refine nodup_arguments ?_ (floatsFinite_of_mem_generate h)
  rw [generate_eq]
  exact nodup_eraseDups _

end BaseSet

/-! ## Reports -/

theorem Executor.map_input_of_trialsFrom {e : Executor} {implementations : Implementations}
    {function : String} {index : Nat} {inputs : List Input} {trials : List Trial}
    (h : e.trialsFrom implementations function index inputs = .ok trials) :
    trials.map Trial.input = inputs := by
  obtain ⟨hlength, hget⟩ := trialsFrom_eq_ok.mp h
  refine List.ext_getElem (by rw [List.length_map, hlength]) fun i hi hi' => ?_
  obtain ⟨t, ht, htrial⟩ := hget i _ (List.getElem?_eq_getElem hi')
  obtain ⟨hlt, rfl⟩ := List.getElem?_eq_some_iff.mp ht
  rw [List.getElem_map]
  exact (trial_eq_ok.mp htrial).2.input

/-- Entries of a report are about trials at different places. -/
theorem Report.nodup_arguments_of_trials {campaign : Campaign}
    (h : (campaign.trials.map fun t => t.input.arguments).Nodup) :
    ((ofCampaign campaign).concise.map ReportEntry.arguments).Nodup := by
  obtain ⟨hpartial, -⟩ := ConciseSet.ofTrials_partial campaign.trials
  have hplaced : ∀ s ∈ campaign.concise,
      (campaign.trials.map fun t => t.input.arguments)[s.position]? =
        some s.trial.input.arguments := by
    intro s hs
    rw [List.getElem?_map, hpartial.placed s hs, Option.map_some]
  rw [ofCampaign, List.map_map]
  refine (List.Nodup.of_map Selected.position hpartial.apart).map_on fun s hs s' hs' heq => ?_
  have hposition : s.position = s'.position := by
    have hget := (hplaced s hs).trans ((congrArg some heq).trans (hplaced s' hs').symm)
    exact (List.getElem?_inj (List.getElem?_eq_some_iff.mp (hplaced s hs)).1 h).mp hget
  exact List.inj_on_of_nodup_map hpartial.apart hs hs' hposition

theorem Spec.nodup_arguments_of_read {text : List Char} {spec : Spec}
    (h : Spec.read text = .ok spec) (seed : Nat) :
    ((BaseSet.ofSpec spec seed).map Input.arguments).Nodup :=
  BaseSet.nodup_arguments_generate (everywhere_of_read DomainTree.finiteFloats_ofRead h)

theorem Campaign.nodup_arguments_of_run {text : Except SpecError String}
    {sampling : SamplingSettings} {freshSeed permits : Nat} {implementations : Implementations}
    {e : Executor} {campaign : Campaign}
    (h : run text sampling freshSeed permits implementations e = .ok campaign) :
    (campaign.trials.map fun t => t.input.arguments).Nodup := by
  unfold run at h
  split at h
  · cases h
  · next spec hspec =>
    obtain ⟨content, -, hread⟩ := bind_eq_ok.mp hspec
    split at h
    · cases h
    · next campaign' hcampaign =>
      cases h
      obtain ⟨trials, htrials, heq⟩ := bind_eq_ok.mp hcampaign
      cases heq
      obtain ⟨_, -, htrials⟩ := bind_eq_ok.mp htrials
      have hinputs := Executor.map_input_of_trialsFrom htrials
      have hnodup := Spec.nodup_arguments_of_read hread (seedOf sampling spec freshSeed)
      rw [← hinputs, List.map_map] at hnodup
      exact hnodup

/-- Values of finite doubles have the same text only if they are the same, and so have inputs.
So of a base set from domains of finite doubles, such as every specification has, no two inputs
are handed to an implementation as the same text, and no two entries of the report of a
campaign show the same arguments. -/
theorem Input.arguments_injective :
    (∀ a b : Value, a.FloatsFinite → b.FloatsFinite → (a.text = b.text ↔ a = b)) ∧
    (∀ a b : Input, a.FloatsFinite → b.FloatsFinite → (a.arguments = b.arguments ↔ a = b)) ∧
    (∀ {σ : Type} (c : Chooser σ) (parameters : List DomainTree) (rounds : Nat) (s : σ),
      (∀ t ∈ parameters, ∀ side, t.Everywhere DomainTree.finiteFloats side) →
      ∀ settings i function, ((BaseSet.generate c parameters rounds s).1.map
        fun input => (Worker.launchOf settings i function input).stdin).Nodup) ∧
    (∀ text spec seed, Spec.read text = .ok spec →
      ∀ settings i function, ((BaseSet.ofSpec spec seed).map
        fun input => (Worker.launchOf settings i function input).stdin).Nodup) ∧
    ∀ text sampling freshSeed permits implementations e campaign,
      Campaign.run text sampling freshSeed permits implementations e = .ok campaign →
      ((Report.ofCampaign campaign).concise.map ReportEntry.arguments).Nodup := by
  refine ⟨?values, ?inputs, ?baseSet, ?spec, ?report⟩
  case values =>
    intro a b ha hb
    exact ⟨Value.text_inj ha hb, congrArg Value.text⟩
  case inputs =>
    intro a b ha hb
    exact ⟨arguments_inj ha hb, congrArg arguments⟩
  case baseSet =>
    intro σ c parameters rounds s h settings i function
    exact BaseSet.nodup_arguments_generate h
  case spec =>
    intro text spec seed h settings i function
    exact Spec.nodup_arguments_of_read h seed
  case report =>
    intro text sampling freshSeed permits implementations e campaign h
    exact Report.nodup_arguments_of_trials (Campaign.nodup_arguments_of_run h)

/-- One half and the two zeros, with one and a half to draw. -/
def signedZeros : DomainTree :=
  .float ⟨[⟨0x3FE0000000000000⟩, ⟨0x8000000000000000⟩, ⟨0⟩], [⟨0x3FF8000000000000⟩]⟩

/-- One string that looks like two, a specification, and a campaign on it. -/
theorem Input.arguments_injective_quotes :
    (¬ (Value.float ⟨0x8000000000000000⟩).text = (Value.float ⟨0⟩).text) ∧
    (¬ Input.arguments [.str "a", .str "b"] = Input.arguments [.str "a', 'b"]) ∧
    ((BaseSet.generate Keystream.chooser [signedZeros] 2 (Keystream.ofSeed 7)).1.map fun input =>
      (Worker.launchOf .standard ⟨"a", "a.py"⟩ "f" input).stdin).Nodup ∧
    ∃ spec campaign, Spec.read threeText.toList = .ok spec ∧
      ((BaseSet.ofSpec spec 7).map fun input =>
        (Worker.launchOf .standard ⟨"a", "a.py"⟩ spec.function input).stdin).Nodup ∧
      Campaign.run (.ok threeText) ⟨none⟩ 0 RunSettings.standard.permits
        ⟨⟨"a", "a.py"⟩, [⟨"b", "b.py"⟩]⟩ (.ofOutcomes raising) = .ok campaign ∧
      ((Report.ofCampaign campaign).concise.map ReportEntry.arguments).Nodup := by
  obtain ⟨hvalues, hinputs, hbaseSet, hspec, hreport⟩ := Input.arguments_injective
  refine ⟨?values, ?inputs, ?baseSet, ?campaign⟩
  case values =>
    rw [hvalues _ _ (by decide) (by decide), Value.float.injEq]
    decide
  case inputs =>
    rw [hinputs _ _ (by decide) (by decide)]
    exact fun h => absurd (congrArg List.length h) (by decide)
  case baseSet =>
    refine hbaseSet _ _ _ _ (List.forall_mem_singleton.mpr fun side => ?_) _ _ _
    show ∀ x ∈ _, _
    cases side <;> decide
  case campaign =>
    obtain ⟨spec, hread, hseed⟩ := read_threeText
    replace hseed : (SamplingSettings.mk none).seed.or spec.seed = some 7 := hseed
    have hrun : Campaign.run (.ok threeText) ⟨none⟩ 0 RunSettings.standard.permits
        ⟨⟨"a", "a.py"⟩, [⟨"b", "b.py"⟩]⟩ (.ofOutcomes raising) = .ok _ :=
      (Campaign.run_ofOutcomes hread hseed 0 _).trans (if_neg (by decide))
    exact ⟨spec, _, hread, hspec _ spec 7 hread _ _ _, hrun, hreport _ _ _ _ _ _ _ hrun⟩

end Divergence
