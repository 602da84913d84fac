import Mathlib.Dynamics.PeriodicPts.Lemmas
import NVMirror.Fuzz.Generator
import NVMirror.Library.XorShift

/-!
# The random numbers of the fuzzer

`Rng.draws_cycle`: from every seed the generator runs through a cycle of states, and draws no 0.
-/

namespace NVMirror

namespace Rng

/-- The state after a draw. -/
def next (rng : Rng) : Rng := rng.nextU64.2

/-- No two states have the same next state. -/
theorem next_injective : Function.Injective next := by
  rintro ⟨x⟩ ⟨y⟩ h
  have hstate : (next ⟨x⟩).state = (next ⟨y⟩).state := congrArg Rng.state h
  have h1 := XorShift.shiftLeft_injective (w := 64) (k := 17) (by decide) hstate
  have h2 := XorShift.ushiftRight_injective (w := 64) (k := 7) (by decide) h1
  have h3 := XorShift.shiftLeft_injective (w := 64) (k := 13) (by decide) h2
  exact congrArg Rng.mk h3

/-- The state 0 is left alone, so no other state leads to it. -/
theorem next_ne_zero {rng : Rng} (h : rng.state ≠ 0) : rng.next.state ≠ 0 := by
  intro hzero
  have hfix : next ⟨0⟩ = ⟨0⟩ := by decide
  have hnext : rng.next = next ⟨0⟩ := by
    rw [hfix]
    exact congrArg Rng.mk hzero
  exact h (congrArg Rng.state (next_injective hnext))

theorem new_ne_zero (seed : U64) : (new seed).state ≠ 0 := by
  show (if seed = 0 then 1 else seed) ≠ 0
  split_ifs with h
  · decide
  · exact h

instance : Finite Rng := Finite.of_injective (fun rng => rng.state.toFin) <| by
  rintro ⟨x⟩ ⟨y⟩ h
  exact congrArg Rng.mk (BitVec.eq_of_toFin_eq h)

/-- **The numbers drawn**, from any seed: none is 0, and after some number of draws the generator is
in its first state again. -/
theorem draws_cycle (seed : U64) : (∀ k, (next^[k] (new seed)).nextU64.1 ≠ 0) ∧
    ∃ p > 0, ∀ k, next^[k + p] (new seed) = next^[k] (new seed) := by
  have hne : ∀ k, (next^[k] (new seed)).state ≠ 0 := by
    intro k
    induction k with
    | zero => exact new_ne_zero seed
    | succ k ih =>
      rw [Function.iterate_succ_apply']
      exact next_ne_zero ih
  refine ⟨fun k => next_ne_zero (hne k), ?_⟩
  obtain ⟨p, hp, hperiod⟩ := next_injective.mem_periodicPts (new seed)
  refine ⟨p, hp, fun k => ?_⟩
  rw [Function.iterate_add_apply]
  exact congrArg next^[k] hperiod

end Rng

end NVMirror
