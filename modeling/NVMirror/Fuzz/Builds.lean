import NVMirror.Fuzz.Oracle
import NVMirror.Fuzz.Programs
import NVMirror.JitEngine.Builds

/-!
# The fuzzer in debug and release builds

A seed that fails in one build is to fail in the other.  `builds_agree`: both builds generate the
same programs, compile them to the same code, and find the same result, unless the interpreter of
the debug build panics.
-/

namespace NVMirror

open Rust

variable {ρ : Type} (nextU64 : ρ → U64 × ρ)

/-! ### Generated programs -/

theorem range_refines (lo hi : I64) :
    Gen.Refines (@Rng.range ρ release nextU64 lo hi) (@Rng.range ρ debug nextU64 lo hi) := by
  refine (Gen.Refines.lift (Refines.subS _ _)).bind fun span => ?_
  refine Gen.Refines.ite (fun _ => Gen.Refines.refl _) fun _ => ?_
  exact (Gen.Refines.refl _).bind fun x => Gen.Refines.lift (Refines.addS _ _)

theorem alu64Operand_refines (op : U8) :
    Gen.Refines (@alu64Operand ρ release nextU64 op) (@alu64Operand ρ debug nextU64 op) := by
  refine Gen.Refines.ite (fun _ => range_refines _ _ _) fun _ => ?_
  refine Gen.Refines.ite (fun _ => range_refines _ _ _) fun _ => ?_
  exact Gen.Refines.ite (fun _ => range_refines _ _ _) fun _ => range_refines _ _ _

theorem alu64Imm_refines :
    Gen.Refines (@alu64Imm ρ release nextU64) (@alu64Imm ρ debug nextU64) := by
  refine (Gen.Refines.refl _).bind fun op => (range_refines _ _ _).bind fun dst => ?_
  exact (alu64Operand_refines _ _).bind fun _ => Gen.Refines.refl _

theorem alu64Reg_refines :
    Gen.Refines (@alu64Reg ρ release nextU64) (@alu64Reg ρ debug nextU64) := by
  refine (Gen.Refines.refl _).bind fun op => (range_refines _ _ _).bind fun dst => ?_
  exact (range_refines _ _ _).bind fun _ => Gen.Refines.refl _

theorem alu32Imm_refines :
    Gen.Refines (@alu32Imm ρ release nextU64) (@alu32Imm ρ debug nextU64) := by
  refine (Gen.Refines.refl _).bind fun op => (range_refines _ _ _).bind fun dst => ?_
  exact (range_refines _ _ _).bind fun _ => Gen.Refines.refl _

theorem mov64Imm_refines (dst : U8) (lo hi : I64) :
    Gen.Refines (@mov64Imm ρ release nextU64 dst lo hi) (@mov64Imm ρ debug nextU64 dst lo hi) :=
  (range_refines _ _ _).bind fun _ => Gen.Refines.refl _

theorem branchOrMov_refines (remaining i : ℕ) :
    Gen.Refines (@branchOrMov ρ release nextU64 remaining i)
      (@branchOrMov ρ debug nextU64 remaining i) := by
  refine (Gen.Refines.refl _).bind fun spaceLeft => ?_
  refine Gen.Refines.ite (fun _ => ?_) fun _ => mov64Imm_refines _ _ _ _
  refine (Gen.Refines.refl _).bind fun room => (range_refines _ _ _).bind fun off => ?_
  refine (Gen.Refines.refl _).bind fun op => (range_refines _ _ _).bind fun dst => ?_
  exact (range_refines _ _ _).bind fun _ => Gen.Refines.refl _

theorem randomInsn_refines (remaining i : ℕ) :
    Gen.Refines (@randomInsn ρ release nextU64 remaining i)
      (@randomInsn ρ debug nextU64 remaining i) := by
  refine (Gen.Refines.refl _).bind fun x => ?_
  refine Gen.Refines.ite (fun _ => alu64Imm_refines _) fun _ => ?_
  refine Gen.Refines.ite (fun _ => alu64Reg_refines _) fun _ => ?_
  refine Gen.Refines.ite (fun _ => alu32Imm_refines _) fun _ => ?_
  refine Gen.Refines.ite (fun _ => ?_) fun _ => branchOrMov_refines _ _ _
  exact (range_refines _ _ _).bind fun dst => mov64Imm_refines _ _ _ _

theorem initReg_refines (insns : List RawInsn) (r : U8) :
    Gen.Refines (@initReg ρ release nextU64 insns r) (@initReg ρ debug nextU64 insns r) := by
  refine (Gen.Refines.refl _).bind fun x => ?_
  refine Gen.Refines.ite (fun _ => ?_) fun _ => Gen.Refines.refl _
  exact (mov64Imm_refines _ _ _ _).bind fun _ => Gen.Refines.refl _

theorem generateProgram_refines (limit : ℕ) :
    Gen.Refines (@generateProgram ρ release nextU64 limit)
      (@generateProgram ρ debug nextU64 limit) := by
  refine (Gen.Refines.refl _).bind fun x => (Gen.Refines.refl _).bind fun n => ?_
  refine (mov64Imm_refines _ _ _ _).bind fun r0 => (mov64Imm_refines _ _ _ _).bind fun r1 => ?_
  refine (Gen.Refines.foldlM (initReg_refines nextU64) _ _).bind fun insns => ?_
  refine (Gen.Refines.foldlM (fun insns i => ?_) _ _).bind fun _ => Gen.Refines.refl _
  exact (randomInsn_refines _ _ _).bind fun _ => Gen.Refines.refl _

/-- **Both builds generate the same programs.** -/
theorem generateProgram_builds {limit : ℕ} (hlimit : limit < 2 ^ 63) (rng : ρ) :
    @generateProgram ρ release nextU64 limit rng = @generateProgram ρ debug nextU64 limit rng := by
  refine generateProgram_refines nextU64 limit rng ?_
  obtain ⟨raw, rng', hgenerate, -⟩ :=
    (@generateProgram_yields ρ debug nextU64 limit hlimit).exists_ok rng
  rw [hgenerate]
  exact Ne.symm (panic_ne_ok _)

/-! ### The oracle -/

theorem checkProgram_builds (host : Host) (fuel : ℕ) (interpResult : U64)
    (program : List RawInsn) :
    @checkProgram release host fuel interpResult program =
      @checkProgram debug host fuel interpResult program := by
  unfold checkProgram
  rw [compile_builds]

theorem fuzzOne_refines (host : Host) (fuel : ℕ) (stackPtr : U64) (limit : ℕ) :
    Gen.Refines (@fuzzOne release ρ nextU64 host fuel stackPtr limit)
      (@fuzzOne debug ρ nextU64 host fuel stackPtr limit) := by
  refine (generateProgram_refines nextU64 limit).bind fun program => ?_
  cases decodeProgram program with
  | error f => cases f <;> exact Gen.Refines.refl _
  | ok insns =>
    refine (Gen.Refines.lift (run_refines stackPtr insns 10000 .new)).bind fun (v, s) => ?_
    exact Gen.Refines.lift (Refines.of_eq (checkProgram_builds host fuel v program))

/-- **Debug and release builds agree.**  From the same seed they generate the same program; on every
input the compiler emits the same code or returns the same error; the interpreter in a release
build, and an iteration of the fuzzer, do what they do in a debug build unless that panics. -/
theorem builds_agree {limit : ℕ} (hlimit : limit < 2 ^ 63) (rng : ρ) (host : Host) (fuel : ℕ)
    (stackPtr : U64) :
    @generateProgram ρ release nextU64 limit rng = @generateProgram ρ debug nextU64 limit rng ∧
      (∀ rawInsns target, @compile release rawInsns target = @compile debug rawInsns target) ∧
      (∀ insns maxSteps s, Refines (@run release stackPtr insns maxSteps s)
        (@run debug stackPtr insns maxSteps s)) ∧
      Refines (@fuzzOne release ρ nextU64 host fuel stackPtr limit rng)
        (@fuzzOne debug ρ nextU64 host fuel stackPtr limit rng) :=
  ⟨generateProgram_builds nextU64 hlimit rng, compile_builds, run_refines stackPtr,
    fuzzOne_refines nextU64 host fuel stackPtr limit rng⟩

/-- `builds_agree` for the seed 42. -/
theorem builds_agree_seed42 : @generateProgram Rng release Rng.nextU64 20 (Rng.new 42) =
    @generateProgram Rng debug Rng.nextU64 20 (Rng.new 42) :=
  (builds_agree Rng.nextU64 (by decide) (Rng.new 42)
    ⟨fun _ => panic, ⟨fun _ => 0, ⟨true, true, true, true⟩, fun _ => 0⟩, .idle⟩ 0 0).1

end NVMirror
