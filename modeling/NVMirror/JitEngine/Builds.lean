import NVMirror.JitEngine.Compile
import NVMirror.JitEngine.Interpreter
import NVMirror.Library.Builds

/-!
# Debug and release builds

Integer overflow panics in a debug build and wraps in a release build.  Every function below is
shown to do the same in both unless it panics in a debug build.

* `compile_refines`, `run_refines`: the compiler and the interpreter.
* `compile_builds`: since the compiler never panics, both builds emit the same code.
-/

namespace NVMirror

open Rust

/-! ### The interpreter -/

section Interpreter

variable (stackPtr : U64)

theorem evalAlu64_refines (op : AluOp) (a b : U64) :
    Refines (@evalAlu64 release op a b) (@evalAlu64 debug op a b) := by
  cases op with
  | neg => exact Refines.negS a
  | _ => exact Refines.refl _

theorem evalAlu32_refines (op : AluOp) (a b : U32) :
    Refines (@evalAlu32 release op a b) (@evalAlu32 debug op a b) := by
  cases op with
  | neg => exact Refines.negS a
  | _ => exact Refines.refl _

theorem stackRel_refines (base : U64) (off : I16) :
    Refines (@stackRel release stackPtr base off) (@stackRel debug stackPtr base off) := by
  refine (Refines.addS _ _).bind fun addr => ?_
  exact (Refines.addU _ _).bind fun stackBase => Refines.refl _

theorem readStack_refines (stack : Fin stackSize → U8) (offset : U64) (width : MemWidth) :
    Refines (@readStack release stack offset width) (@readStack debug stack offset width) :=
  (Refines.addU _ _).bind fun _ => Refines.refl _

theorem writeStack_refines (stack : Fin stackSize → U8) (offset : U64) (width : MemWidth)
    (val : U64) : Refines (@writeStack release stack offset width val)
      (@writeStack debug stack offset width val) :=
  (Refines.addU _ _).bind fun _ => Refines.refl _

theorem stepInsn_refines (s : InterpreterState) (insn : Insn) :
    Refines (@stepInsn release stackPtr s insn) (@stepInsn debug stackPtr s insn) := by
  cases insn with
  | alu64 op dst src => exact (evalAlu64_refines _ _ _).bind fun _ => Refines.refl _
  | alu32 op dst src => exact (evalAlu32_refines _ _ _).bind fun _ => Refines.refl _
  | load width dst src off =>
    refine (stackRel_refines _ _ _).bind fun rel => ?_
    exact (readStack_refines _ _ _).bind fun _ => Refines.refl _
  | storeReg width dst src off | storeImm width dst off imm =>
    refine (stackRel_refines _ _ _).bind fun rel => ?_
    exact (writeStack_refines _ _ _ _).bind fun _ => Refines.refl _
  | _ => exact Refines.refl _

theorem step_refines (insns : List Insn) (s : InterpreterState) :
    Refines (@step release stackPtr insns s) (@step debug stackPtr insns s) := by
  refine Refines.ite (fun _ => Refines.refl _) fun _ => ?_
  exact (Refines.refl _).bind fun insn => stepInsn_refines stackPtr s insn

theorem runLoop_refines (insns : List Insn) (k : ℕ) (s : InterpreterState) :
    Refines (@runLoop release stackPtr insns k s) (@runLoop debug stackPtr insns k s) := by
  induction k generalizing s with
  | zero => exact Refines.refl _
  | succ k ih =>
    refine (step_refines stackPtr insns s).bind fun (t, continues) => ?_
    exact Refines.ite (fun _ => ih t) fun _ => Refines.refl _

/-- **The interpreter** in a release build refines that in a debug build. -/
theorem run_refines (insns : List Insn) (maxSteps : ℕ) (s : InterpreterState) :
    Refines (@run release stackPtr insns maxSteps s) (@run debug stackPtr insns maxSteps s) :=
  (runLoop_refines stackPtr insns maxSteps s).bind fun _ => Refines.refl _

end Interpreter

/-! ### Lowering -/

section Lowering

theorem numberPc_refines (acc : List BasicBlockId × U32) (x : Bool × ℕ) :
    Refines (@numberPc release acc x) (@numberPc debug acc x) := by
  refine Refines.ite (fun _ => ?_) fun _ => Refines.refl _
  refine (Refines.refl _).bind fun pcToBb => ?_
  exact (Refines.addU _ _).bind fun _ => Refines.refl _

theorem numberBlocks_refines (isLeader : List Bool) :
    Refines (@numberBlocks release isLeader) (@numberBlocks debug isLeader) :=
  (Refines.foldlM numberPc_refines _ _).bind fun _ => Refines.refl _

theorem frameStep_refines (acc : U16 × Bool) (insn : Insn) :
    Refines (@frameStep release acc insn) (@frameStep debug acc insn) := by
  unfold frameStep
  cases stackOff insn with
  | none => exact Refines.refl _
  | some o => exact (Refines.negS _).bind fun _ => Refines.refl _

theorem frameSizeOf_refines (insns : List Insn) :
    Refines (@frameSizeOf release insns) (@frameSizeOf debug insns) := by
  refine (Refines.foldlM frameStep_refines _ _).bind fun acc => ?_
  exact (Refines.addU _ _).bind fun _ => Refines.refl _

theorem startBlock_refines (isLeader : List Bool) (frameSize : U16) (st : LowerState) (pc : ℕ) :
    Refines (@startBlock release isLeader frameSize st pc)
      (@startBlock debug isLeader frameSize st pc) := by
  refine (Refines.refl _).bind fun leader => ?_
  refine Refines.ite (fun _ => ?_) fun _ => Refines.refl _
  dsimp only
  refine Refines.ite (fun _ => ?_) fun _ => Refines.refl _
  exact (Refines.addU _ _).bind fun _ => Refines.refl _

theorem lowerToIr_refines (insns : List Insn) (regmap : RegMap) :
    Refines (@lowerToIr release insns regmap) (@lowerToIr debug insns regmap) := by
  refine (Refines.refl _).bind fun isLeader => ?_
  refine (numberBlocks_refines isLeader).bind fun pcToBb => ?_
  refine (frameSizeOf_refines insns).bind fun frameSize => ?_
  refine (Refines.foldlM (fun st x => ?_) _ _).bind fun _ => Refines.refl _
  exact (startBlock_refines _ _ _ _).bind fun _ => Refines.refl _

end Lowering

/-! ### Emission -/

theorem emitProgram_refines {κ ε : Type} {f g : Emitter κ → IrNode → Rust ε (Emitter κ)}
    (h : ∀ e node, Refines (f e node) (g e node)) (e : Emitter κ) (program : IrProgram) :
    Refines (e.emitProgram f program) (e.emitProgram g program) := by
  refine Refines.foldlM (fun e block => ?_) _ _
  exact (h e _).bind fun e => Refines.foldlM h _ _

namespace Aarch64

variable {ε : Type}

theorem lslXImm_refines (rd rn shift : U8) :
    Refines (@lslXImm ε release rd rn shift) (@lslXImm ε debug rd rn shift) := by
  refine (Refines.subU _ _).bind fun immr => ?_
  exact (Refines.subU _ _).bind fun _ => Refines.refl _

theorem emitAlu64Node_refines (op : AluOp) (dst : PhysReg) (src : Operand) :
    Refines (@emitAlu64Node ε release op dst src) (@emitAlu64Node ε debug op dst src) := by
  cases src with
  | reg rs => cases op <;> · simp only [emitAlu64Node]; exact Refines.refl _
  | imm v =>
    cases op with
    | lsh =>
      simp only [emitAlu64Node]
      exact (lslXImm_refines _ _ _).bind fun _ => Refines.refl _
    | _ =>
      simp only [emitAlu64Node]
      exact Refines.refl _

theorem emitPrologue_refines (frameSize : U16) :
    Refines (@emitPrologue ε release frameSize) (@emitPrologue ε debug frameSize) :=
  (Refines.negS _).bind fun _ => Refines.refl _

theorem emitNode_refines (e : AArch64Emitter) (node : IrNode) :
    Refines (@emitNode release e node) (@emitNode debug e node) := by
  cases node with
  | alu64 op dst src => exact (emitAlu64Node_refines _ _ _).bind fun _ => Refines.refl _
  | prologue frameSize => exact (emitPrologue_refines _).bind fun _ => Refines.refl _
  | _ => exact Refines.refl _

end Aarch64

namespace Riscv

variable {ε : Type}

theorem splitImm_refines (val : I64) :
    Refines (@splitImm ε release val) (@splitImm ε debug val) :=
  (Refines.addS _ _).bind fun _ => Refines.refl _

theorem emitLoadImm64_refines (rd : U8) (imm : U64) :
    Refines (@emitLoadImm64 ε release rd imm) (@emitLoadImm64 ε debug rd imm) := by
  refine Refines.ite (fun _ => Refines.refl _) fun _ => ?_
  refine Refines.ite (fun _ => Refines.refl _) fun _ => ?_
  refine Refines.ite (fun _ => ?_) fun _ => ?_
  · exact (splitImm_refines _).bind fun _ => Refines.refl _
  · refine (splitImm_refines _).bind fun (hiUpper, loUpper) => ?_
    exact (splitImm_refines _).bind fun _ => Refines.refl _

theorem materializeImm_refines (val : I64) (tmp : U8) :
    Refines (@materializeImm ε release val tmp) (@materializeImm ε debug val tmp) :=
  (emitLoadImm64_refines _ _).bind fun _ => Refines.refl _

theorem emitAlu64Node_refines (op : AluOp) (dst : PhysReg) (src : Operand) :
    Refines (@emitAlu64Node ε release op dst src) (@emitAlu64Node ε debug op dst src) := by
  cases src with
  | reg rs => cases op <;> · simp only [emitAlu64Node]; exact Refines.refl _
  | imm v =>
    cases op with
    | mov =>
      simp only [emitAlu64Node]
      exact emitLoadImm64_refines _ _
    | lsh | rsh | arsh | neg =>
      simp only [emitAlu64Node]
      exact Refines.refl _
    | _ =>
      simp only [emitAlu64Node]
      refine Refines.ite (fun _ => Refines.refl _) fun _ => ?_
      refine Refines.ite (fun _ => Refines.refl _) fun _ => ?_
      refine Refines.ite (fun _ => Refines.refl _) fun _ => ?_
      refine Refines.ite (fun _ => Refines.refl _) fun _ => ?_
      exact (materializeImm_refines _ _).bind fun _ => Refines.refl _

theorem emitAlu32Node_refines (op : AluOp) (dst : PhysReg) (src : Operand) :
    Refines (@emitAlu32Node ε release op dst src) (@emitAlu32Node ε debug op dst src) := by
  cases src with
  | reg rs => cases op <;> · simp only [emitAlu32Node]; exact Refines.refl _
  | imm v =>
    cases op with
    | neg =>
      simp only [emitAlu32Node]
      exact Refines.refl _
    | _ =>
      simp only [emitAlu32Node]
      exact (materializeImm_refines _ _).bind fun _ => Refines.refl _

theorem branchRhs_refines (src : Operand) :
    Refines (@branchRhs release ε src) (@branchRhs debug ε src) := by
  cases src with
  | reg r => exact Refines.refl _
  | imm v => exact materializeImm_refines _ _

theorem emitBranchNode_refines (e : RiscVEmitter) (cond : BranchCond) (target : BasicBlockId) :
    Refines (@emitBranchNode release ε e cond target) (@emitBranchNode debug ε e cond target) :=
  (branchRhs_refines _).bind fun _ => Refines.refl _

theorem emitAtomicNode_refines (e : RiscVEmitter) (op : AtomicOp) (base src : PhysReg)
    (off : I16) : Refines (@emitAtomicNode release ε e op base src off)
      (@emitAtomicNode debug ε e op base src off) := by
  cases op with
  | cmpXchg => exact (Refines.subS _ _).bind fun _ => Refines.refl _
  | _ => exact Refines.refl _

theorem frameOff_refines (frameSize : U16) (k : I32) :
    Refines (@frameOff release ε frameSize k) (@frameOff debug ε frameSize k) :=
  Refines.subS _ _

theorem emitPrologue_refines (frameSize : U16) :
    Refines (@emitPrologue release ε frameSize) (@emitPrologue debug ε frameSize) := by
  refine (Refines.negS _).bind fun down => ?_
  refine (frameOff_refines _ _).bind fun ra => (frameOff_refines _ _).bind fun s0 => ?_
  refine (frameOff_refines _ _).bind fun s2 => (frameOff_refines _ _).bind fun s3 => ?_
  refine (frameOff_refines _ _).bind fun s4 => (frameOff_refines _ _).bind fun s5 => ?_
  exact (frameOff_refines _ _).bind fun s6 => Refines.refl _

theorem emitEpilogue_refines (frameSize : U16) :
    Refines (@emitEpilogue release ε frameSize) (@emitEpilogue debug ε frameSize) := by
  refine (frameOff_refines _ _).bind fun s6 => (frameOff_refines _ _).bind fun s5 => ?_
  refine (frameOff_refines _ _).bind fun s4 => (frameOff_refines _ _).bind fun s3 => ?_
  refine (frameOff_refines _ _).bind fun s2 => (frameOff_refines _ _).bind fun s0 => ?_
  exact (frameOff_refines _ _).bind fun ra => Refines.refl _

theorem emitNode_refines (e : RiscVEmitter) (node : IrNode) :
    Refines (@emitNode release e node) (@emitNode debug e node) := by
  cases node with
  | alu64 op dst src => exact (emitAlu64Node_refines _ _ _).bind fun _ => Refines.refl _
  | alu32 op dst src => exact (emitAlu32Node_refines _ _ _).bind fun _ => Refines.refl _
  | storeImm width base off imm => exact (emitLoadImm64_refines _ _).bind fun _ => Refines.refl _
  | loadImm64 dst imm => exact (emitLoadImm64_refines _ _).bind fun _ => Refines.refl _
  | branch cond target => exact emitBranchNode_refines _ _ _
  | atomic width op base src off => exact emitAtomicNode_refines _ _ _ _ _
  | prologue frameSize => exact (emitPrologue_refines _).bind fun _ => Refines.refl _
  | epilogue frameSize => exact (emitEpilogue_refines _).bind fun _ => Refines.refl _
  | _ => exact Refines.refl _

end Riscv

/-! ### The pipeline -/

theorem emitForTarget_refines (ir : IrProgram) (target : Target) :
    Refines (@emitForTarget release ir target) (@emitForTarget debug ir target) := by
  cases target with
  | aArch64 =>
    refine Refines.mapErr (Refines.bind ?_ fun _ => Refines.refl _) _
    exact emitProgram_refines Aarch64.emitNode_refines _ _
  | riscV64 =>
    refine Refines.mapErr (Refines.bind ?_ fun _ => Refines.refl _) _
    exact emitProgram_refines Riscv.emitNode_refines _ _

/-- **The compiler** in a release build refines that in a debug build. -/
theorem compile_refines (rawInsns : List RawInsn) (target : Target) :
    Refines (@compile release rawInsns target) (@compile debug rawInsns target) := by
  refine (Refines.refl _).bind fun insns => (Refines.refl _).bind fun numBlocks => ?_
  refine ((lowerToIr_refines _ _).mapErr _).bind fun ir => ?_
  exact (emitForTarget_refines ir target).bind fun _ => Refines.refl _

/-- **Both builds emit the same code**, or fail with the same error, on every input. -/
theorem compile_builds (rawInsns : List RawInsn) (target : Target) :
    @compile release rawInsns target = @compile debug rawInsns target := by
  refine compile_refines rawInsns target ?_
  unfold compile
  cases hdec : decodeProgram rawInsns with
  | error f =>
    have hdecode := decodeProgram_meets rawInsns
    rw [hdec] at hdecode
    exact fun h => Fault.map_ne_panic hdecode (Except.error.inj h)
  | ok insns =>
    rw [mapErr_ok, ok_bind]
    cases hver : verifyProgram insns with
    | error f =>
      have hverify := verifyProgram_meets insns
      have hlen := (decoded_of_decodeProgram hdec).length_le
      rw [hver] at hverify
      refine fun h => Fault.map_ne_panic (mt hverify ?_) (Except.error.inj h)
      unfold maxInsns at hlen
      unfold Oversized
      omega
    | ok n =>
      have hacc := accepted_of_ok hdec hver
      obtain ⟨ir, hir, flags, pcToBb, nodes, h⟩ :=
        (@lowerToIr_meets insns debug hacc (regmapForTarget target)).exists_ok
      have hemit := @Lowering.emitForTarget_meets debug _ _ _ _ _ _ h hacc target
      rw [mapErr_ok, ok_bind, hir, mapErr_ok, ok_bind]
      cases hcode : @emitForTarget debug ir target with
      | ok code => exact Ne.symm (panic_ne_ok _)
      | error f =>
        rw [hcode] at hemit
        exact fun hpanic => hemit (Except.error.inj hpanic)

end NVMirror
