import Mathlib.Data.BitVec

/-!
# Steps of xorshift generators

A word xored with its own shift, to either side, determines the word: bit by bit, from the side
where the shift brings in zeros.
-/

namespace XorShift

variable {w k : ℕ} {x y : BitVec w}

/-- A shift to the left. -/
theorem shiftLeft_injective (hk : 0 < k) :
    Function.Injective fun x : BitVec w => x ^^^ (x <<< k) := by
  intro x y h
  have hbit : ∀ i, x.getLsbD i = y.getLsbD i := by
    intro i
    induction i using Nat.strong_induction_on with
    | _ i ih =>
      have hi := congrArg (fun v : BitVec w => v.getLsbD i) h
      simp only [BitVec.getLsbD_xor, BitVec.getLsbD_shiftLeft] at hi
      by_cases hik : i < k
      · simpa [hik] using hi
      · rw [ih (i - k) (by omega)] at hi
        exact Bool.xor_left_inj.1 hi
  exact BitVec.eq_of_getLsbD_eq fun i _ => hbit i

/-- A shift to the right. -/
theorem ushiftRight_injective (hk : 0 < k) :
    Function.Injective fun x : BitVec w => x ^^^ (x >>> k) := by
  intro x y h
  have hbit : ∀ d i, w ≤ i + d → x.getLsbD i = y.getLsbD i := by
    intro d
    induction d with
    | zero =>
      intro i hi
      rw [BitVec.getLsbD_of_ge x i hi, BitVec.getLsbD_of_ge y i hi]
    | succ d ih =>
      intro i hi
      have hi' := congrArg (fun v : BitVec w => v.getLsbD i) h
      simp only [BitVec.getLsbD_xor, BitVec.getLsbD_ushiftRight] at hi'
      rw [ih (k + i) (by omega)] at hi'
      exact Bool.xor_left_inj.1 hi'
  exact BitVec.eq_of_getLsbD_eq fun i _ => hbit w i (Nat.le_add_left w i)

end XorShift
