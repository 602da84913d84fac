import NVMirror.JitEngine.Interpreter

/-!
# Arithmetic

`aluResult`: what an arithmetic operation computes, for values of any width.  Where negation wraps,
it is what the interpreter computes (`evalAlu64_eq`, `evalAlu32_eq`).
-/

namespace NVMirror

open Rust

/-- The result of an operation, for operands of any width. -/
def aluResult {w : ℕ} (op : AluOp) (a b : BitVec w) : BitVec w :=
  match op with
  | .add => a + b
  | .sub => a - b
  | .mul => a * b
  | .div => if b = 0 then 0 else a / b
  | .mod => if b = 0 then a else a % b
  | .or => a ||| b
  | .and => a &&& b
  | .xor => a ^^^ b
  | .lsh => a <<< (b.toNat % w)
  | .rsh => a >>> (b.toNat % w)
  | .arsh => a.sshiftRight (b.toNat % w)
  | .mov => b
  | .neg => -a

/-- The interpreter computes it, when negation wraps. -/
theorem evalAlu64_eq (op : AluOp) (a b : U64) :
    @evalAlu64 release op a b = .ok (aluResult op a b) := by
  have hmask : (b &&& 63).toNat = b.toNat % 64 := by
    rw [BitVec.toNat_and]
    exact Nat.and_two_pow_sub_one_eq_mod b.toNat 6
  cases op with
  | lsh | rsh | arsh =>
    dsimp only [evalAlu64, aluResult]
    rw [← hmask]
    rfl
  | _ => rfl

theorem evalAlu32_eq (op : AluOp) (a b : U32) :
    @evalAlu32 release op a b = .ok (aluResult op a b) := by
  have hmask : (b &&& 31).toNat = b.toNat % 32 := by
    rw [BitVec.toNat_and]
    exact Nat.and_two_pow_sub_one_eq_mod b.toNat 5
  cases op with
  | lsh | rsh | arsh =>
    dsimp only [evalAlu32, aluResult]
    rw [← hmask]
    rfl
  | _ => rfl

end NVMirror
