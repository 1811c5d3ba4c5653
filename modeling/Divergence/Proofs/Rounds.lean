/-
# `Divergence.Proofs.Rounds` — more rounds only append

Rounds of sampling come one after the other out of one state.  So some rounds and then
some more, from the state that the first leave behind, are as many rounds at once
(`randomInputs_add`).  A round that gives no input is no exception: it adds nothing, and
what it has drawn before it failed stays drawn.

The base set keeps first appearances, and an input that appears before any of the later
rounds has appeared first whatever these give.  So the base set of fewer rounds is the
start of that of more, and behind it come the inputs of the later rounds that are new
(`generate_add`).
-/
import Divergence.Proofs.Choices
import Divergence.Proofs.Positions

namespace Divergence

theorem eraseDups_append_filter {α : Type} [BEq α] [LawfulBEq α] (xs ys : List α) :
    (xs ++ ys).eraseDups = xs.eraseDups ++ (ys.filter (· ∉ xs.eraseDups)).eraseDups := by
  have hnew : ys.removeAll xs = ys.filter (· ∉ xs.eraseDups) := by
    refine List.filter_congr fun y _ => ?_
    simp [List.mem_eraseDups]
  rw [List.eraseDups_append, hnew]

namespace BaseSet

open Divergence.DomainTree Divergence.Sampling

variable {σ : Type} (c : Chooser σ) (parameters : List DomainTree)

/-- Some rounds and then some more are as many rounds at once. -/
theorem randomInputs_add (n k : Nat) (s : σ) :
    randomInputs c parameters (n + k) s =
      let first := randomInputs c parameters n s
      let second := randomInputs c parameters k first.2
      (first.1 ++ second.1, second.2) := by
  induction n generalizing s with
  | zero =>
    rw [Nat.zero_add]
    rfl
  | succ n ih =>
    rw [Nat.succ_add, randomInputs, randomInputs]
    -- what the first round leaves behind is where all the others start, in both runs
    cases hround : sampleInput c parameters s with
    | mk input s' =>
      cases input with
      | none => exact ih s'
      | some input =>
        dsimp only
        rw [ih s']
        rfl

/-- After the base set of some rounds, that of more has the inputs of the later rounds that are
new. -/
theorem generate_add (n k : Nat) (s : σ) :
    generate c parameters (n + k) s =
      let before := generate c parameters n s
      let later := randomInputs c parameters k before.2
      (before.1 ++ (later.1.filter (· ∉ before.1)).eraseDups, later.2) := by
  rw [generate_eq, generate_eq, randomInputs_add]
  dsimp only
  rw [← List.append_assoc, eraseDups_append_filter]

theorem generate_prefix {n m : Nat} (h : n ≤ m) (s : σ) :
    (generate c parameters n s).1 <+: (generate c parameters m s).1 := by
  obtain ⟨k, rfl⟩ := Nat.exists_eq_add_of_le h
  rw [generate_add]
  exact List.prefix_append _ _

/-- With more rounds and the same state to start from, a base set has the same inputs in the same
places, and behind them those that the further rounds are the first to give.  Sampling twice is
sampling once for twice the rounds: it gives the same inputs and leaves the same state, whether
or not some rounds fail. -/
theorem generate_appends :
    (∀ {σ : Type} (c : Chooser σ) (parameters : List DomainTree) (s : σ),
      (∀ n m, n ≤ m → (generate c parameters n s).1 <+: (generate c parameters m s).1) ∧
      (∀ n k,
        let before := generate c parameters n s
        let later := randomInputs c parameters k before.2
        generate c parameters (n + k) s =
          (before.1 ++ (later.1.filter (· ∉ before.1)).eraseDups, later.2)) ∧
      ∀ n,
        let first := randomInputs c parameters n s
        let second := randomInputs c parameters n first.2
        randomInputs c parameters (2 * n) s = (first.1 ++ second.1, second.2)) ∧
    ∀ (spec : Spec) (rounds seed : Nat), spec.numRandom ≤ rounds →
      ofSpec spec seed <+: ofSpec { spec with numRandom := rounds } seed := by
  refine ⟨fun c parameters s => ⟨?fewer, ?later, ?twice⟩, ?spec⟩
  case fewer =>
    intro n m h
    exact generate_prefix c parameters h s
  case later =>
    intro n k
    exact generate_add c parameters n k s
  case twice =>
    intro n
    rw [Nat.two_mul]
    exact randomInputs_add c parameters n n s
  case spec =>
    intro spec rounds seed h
    exact generate_prefix Keystream.chooser spec.parameters h (Keystream.ofSeed (UInt64.ofNat seed))

/-- A number, and a string of none or of two characters where there are no characters. -/
def sometimesHollow : List DomainTree :=
  [.int ⟨[0], [5, 6]⟩, .str [] ⟨[0], [0, 2]⟩]

/-- The second of three rounds fails, after it has drawn a number and a length. -/
theorem generate_appends_skipping :
    (2 ≤ 3 ∧ (generate script sometimesHollow 2 [0, 0, 1, 1, 1, 0]).1 <+:
      [[.int 0, .str ""], [.int 5, .str ""], [.int 6, .str ""]]) ∧
    ∃ spec, Spec.read Spec.pairsText = .ok spec ∧ spec.numRandom ≤ 9 ∧
      ofSpec spec 7 <+: ofSpec { spec with numRandom := 9 } 7 := by
  obtain ⟨hgenerate, hspec⟩ := generate_appends
  obtain ⟨hfewer, -, -⟩ := hgenerate script sometimesHollow [0, 0, 1, 1, 1, 0]
  refine ⟨⟨by decide, ?_⟩, ?_⟩
  · have hinputs : inputs sometimesHollow = [[.int 0, .str ""]] := by cbv
    have hrandom : (randomInputs script sometimesHollow 3 [0, 0, 1, 1, 1, 0]).1 =
        [[.int 5, .str ""], [.int 6, .str ""]] := rfl
    have hthree := hfewer 2 3 (by decide)
    rw [generate_eq script sometimesHollow 3, hinputs, hrandom] at hthree
    exact hthree
  · obtain ⟨spec, hread, hrounds⟩ := Spec.read_pairsText
    have hle : spec.numRandom ≤ 9 := by
      rw [hrounds]
      decide
    exact ⟨spec, hread, hle, hspec spec 9 7 hle⟩

end BaseSet

end Divergence
