/-
# `Divergence.Proofs.BaseSet` — the base set has each input once

What has been seen is kept in a hash set while the inputs are gone through.
Equality of values is lawful, so the hash set answers as a list would, and
what is left of the inputs is their list without repetitions, in order of
first appearance.
-/
import Divergence.BaseSet
import Divergence.Proofs.Orders
import Std.Data.HashSet.Lemmas

namespace Divergence

namespace BaseSet

theorem unseen_eq_eraseDups (seen : Std.HashSet Input) (inputs : List Input) :
    unseen seen inputs = (inputs.filter fun input => !seen.contains input).eraseDups := by
  induction inputs generalizing seen with
  | nil => rfl
  | cons input rest ih =>
    rw [unseen]
    split
    · next hseen => rw [ih, List.filter_cons_of_neg (by simp [hseen])]
    · next hnew =>
      rw [ih, List.filter_cons_of_pos (by simpa using hnew), List.eraseDups_cons,
        List.filter_filter]
      congr 2
      refine List.filter_congr fun other _ => ?_
      rw [Std.HashSet.contains_insert, Bool.not_or, BEq.comm]

theorem distinct_eq_eraseDups (inputs : List Input) : distinct inputs = inputs.eraseDups := by
  rw [distinct, unseen_eq_eraseDups, List.filter_eq_self.mpr]
  intro input _
  rw [Std.HashSet.contains_empty, Bool.not_false]

end BaseSet

/-- The inputs that a specification and a seed give, each at its first place: first those of
the exhaustive domains, then those drawn from the random ones. -/
def Spec.inputs (spec : Spec) (seed : Nat) : List Input :=
  (DomainTree.inputs spec.parameters ++
    (BaseSet.randomInputs Sampling.Keystream.chooser spec.parameters spec.numRandom
      (Sampling.Keystream.ofSeed (UInt64.ofNat seed))).1).eraseDups

theorem BaseSet.ofSpec_eq_inputs (spec : Spec) (seed : Nat) :
    BaseSet.ofSpec spec seed = spec.inputs seed :=
  distinct_eq_eraseDups _

end Divergence
