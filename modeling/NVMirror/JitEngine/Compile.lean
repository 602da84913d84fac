import NVMirror.JitAarch64.Nodes
import NVMirror.JitRegalloc.Layout
import NVMirror.JitRiscv.Nodes

/-!
# The pipeline (`crates/jit-engine/src/lib.rs`)

`compile` decodes, verifies, lowers, emits and finalizes; both targets are enabled.
`compile_ne_panic` says that no step panics, whatever the input.
-/

namespace NVMirror

open Rust Leaders

/-- Target architecture selection. -/
inductive Target
  | aArch64
  | riscV64
  deriving DecidableEq, Repr

/-- Unified JIT compilation error. -/
inductive JitError
  | decode (e : DecodeError)
  | verify (e : VerifyError)
  | emitAArch64 (e : Aarch64.AArch64EmitError)
  | emitRiscV (e : Riscv.RiscVEmitError)
  | targetNotEnabled

/-- Result of a successful JIT compilation. -/
structure JitOutput where
  /-- The emitted machine code bytes. -/
  code : List U8
  /-- The lowered IR. -/
  ir : IrProgram
  /-- Number of basic blocks. -/
  numBlocks : ℕ

deriving instance DecidableEq for JitOutput

/-- The registers of a target. -/
def regmapForTarget : Target → RegMap
  | .aArch64 => aarch64Regmap
  | .riscV64 => riscv64Regmap

variable [Profile]

/-- The finished code of a lowered program. -/
def emitForTarget (ir : IrProgram) : Target → Rust JitError (List U8)
  | .aArch64 => mapErr .emitAArch64 do
    let emitter ← Aarch64.emitProgram .new ir
    Aarch64.finalize emitter
  | .riscV64 => mapErr .emitRiscV do
    let emitter ← Riscv.emitProgram .new ir
    Riscv.finalize emitter

/-- Compile eBPF raw bytecode to native machine code. -/
def compile (rawInsns : List RawInsn) (target : Target) : Rust JitError JitOutput := do
  let insns ← mapErr .decode (decodeProgram rawInsns)
  let numBlocks ← mapErr .verify (verifyProgram insns)
  let ir ← mapErr Empty.elim (lowerToIr insns (regmapForTarget target))
  let code ← emitForTarget ir target
  pure { code, ir, numBlocks }

/-- The stages of a successful compilation. -/
theorem compile_stages {raw : List RawInsn} {target : Target} {insns : List Insn} {out : JitOutput}
    (hdec : decodeProgram raw = .ok insns) (hout : compile raw target = .ok out) :
    Accepted insns ∧ lowerToIr insns (regmapForTarget target) = .ok out.ir ∧
      emitForTarget out.ir target = .ok out.code := by
  obtain ⟨insns', hdec', hout⟩ := bind_eq_ok.1 hout
  obtain ⟨n, hver, hout⟩ := bind_eq_ok.1 hout
  obtain ⟨ir, hir, hout⟩ := bind_eq_ok.1 hout
  obtain ⟨code, hcode, hout⟩ := bind_eq_ok.1 hout
  cases hout
  rw [mapErr_eq_ok] at hdec' hver hir
  cases hdec.symm.trans hdec'
  exact ⟨accepted_of_ok hdec hver, hir, hcode⟩

/-! ### Lowered nodes -/

variable {insns : List Insn} {regmap : RegMap} {flags : List Bool} {pcToBb : List BasicBlockId}
  {nodes : ℕ → List IrNode} {ir : IrProgram}

omit [Profile] in
/-- An instruction is lowered to at most two nodes, all of which may stand in a block. -/
theorem lowerInsn_bounds {frameSize : U16} (hframe : FrameSize frameSize) {pc : ℕ} {insn : Insn}
    {ns : List IrNode} (h : lowerInsn regmap pcToBb frameSize pc insn = .ok ns) :
    ns.length ≤ 2 ∧ ∀ node ∈ ns, node.InBlock := by
  have hle := hframe.le
  cases insn with
  | ja off | jmpCond op dst src off | jmpCond32 op dst src off =>
    obtain ⟨t, -, h⟩ := bind_eq_ok.1 h
    cases h
    simp [IrNode.InBlock]
  | exit =>
    cases h
    split_ifs
    · refine ⟨by simp, fun node hnode => ?_⟩
      rcases List.mem_pair.1 hnode with rfl | rfl
      · show frameSize.toNat < 2 ^ 15
        omega
      · trivial
    · simp [IrNode.InBlock]
  | _ =>
    cases h
    simp [IrNode.InBlock]

omit [Profile] in
theorem Lowering.code_bounds (h : Lowering insns regmap flags pcToBb nodes ir)
    (hne : insns ≠ []) :
    ir.code.length ≤ 1 + 2 * insns.length ∧ ∀ node ∈ ir.code, node.InBlock := by
  have hnodes : ∀ pc < insns.length, (nodes pc).length ≤ 2 ∧ ∀ node ∈ nodes pc, node.InBlock :=
    fun pc hpc => lowerInsn_bounds h.frameSize (h.lower_eq pc _ (List.getElem?_eq_getElem hpc))
  have hspan : ∀ e ≤ insns.length, (spanNodes nodes 0 e).length ≤ 2 * e ∧
      ∀ node ∈ spanNodes nodes 0 e, node.InBlock := by
    intro e he
    induction e with
    | zero =>
      rw [spanNodes_self]
      simp
    | succ e ih =>
      obtain ⟨h1, h2⟩ := ih (by omega)
      obtain ⟨h3, h4⟩ := hnodes e he
      rw [spanNodes_succ nodes (Nat.zero_le e), List.length_append]
      refine ⟨by omega, fun node hnode => ?_⟩
      exact (List.mem_append.1 hnode).elim (h2 node) (h4 node)
  obtain ⟨h1, h2⟩ := hspan _ le_rfl
  have hpro : (prologueOf ir.frameSize).length ≤ 1 ∧
      ∀ node ∈ prologueOf ir.frameSize, node.InBlock := by
    have hle := h.frameSize.le
    unfold prologueOf
    split_ifs
    · refine ⟨by simp, fun node hnode => ?_⟩
      rw [List.mem_singleton.1 hnode]
      show ir.frameSize.toNat < 2 ^ 15
      omega
    · simp
  rw [IrProgram.code, h.flatMap_nodes hne, List.length_append]
  refine ⟨by omega, fun node hnode => ?_⟩
  exact (List.mem_append.1 hnode).elim (hpro.2 node) (h2 node)

/-! ### Totality -/

/-- Buffers stay below a gibibyte. -/
def bufLimit : ℕ := 2 ^ 30 - 1

/-- The AArch64 words of a lowered program. -/
theorem Lowering.aarch64_emission (h : Lowering insns regmap flags pcToBb nodes ir)
    (hacc : Accepted insns) :
    ∃ W, Emission Aarch64.emitNode ir.code W Aarch64.branchOf bufLimit ∧
      (ir.code.flatMap W).length ≤ Aarch64.maxExpansionRatio * ir.code.length := by
  obtain ⟨hlen, hin⟩ := h.code_bounds hacc.ne_nil
  have hmax := hacc.length_le
  unfold maxInsns at hmax
  unfold Aarch64.maxExpansionRatio
  refine exists_emission 8 (fun e bb => rfl) (by unfold bufLimit; omega) (fun bb => hin _)
    fun node hnode => ?_
  obtain ⟨ws, hemits, hws⟩ := Aarch64.emitNode_emits (Aarch64.emittable_of_inBlock (hin node hnode))
  exact ⟨ws, hemits bufLimit, hws⟩

/-- The RISC-V words of a lowered program. -/
theorem Lowering.riscv_emission (h : Lowering insns regmap flags pcToBb nodes ir)
    (hacc : Accepted insns) :
    ∃ W, Emission Riscv.emitNode ir.code W Riscv.branchOf bufLimit ∧
      (ir.code.flatMap W).length ≤ Riscv.maxExpansionRatio * ir.code.length := by
  obtain ⟨hlen, hin⟩ := h.code_bounds hacc.ne_nil
  have hmax := hacc.length_le
  unfold maxInsns at hmax
  have hlimit : bufLimit < 2 ^ 30 := by decide
  have hfits : 4 * (9 * ir.code.length) ≤ bufLimit := by
    unfold bufLimit
    omega
  obtain ⟨W, hW, hsize⟩ := exists_emission 9 (fun e bb => rfl) hfits (fun bb => hin _)
    fun node hnode => Riscv.emitNode_emits hlimit (hin node hnode)
  refine ⟨W, hW, hsize.trans ?_⟩
  unfold Riscv.maxExpansionRatio
  omega

/-- Emitting a lowered program fails at most with an error value. -/
theorem Lowering.emitForTarget_meets (h : Lowering insns regmap flags pcToBb nodes ir)
    (hacc : Accepted insns) (target : Target) :
    Meets (emitForTarget ir target) (fun _ => True) (fun f => f ≠ .panic) := by
  cases target with
  | aArch64 =>
    obtain ⟨W, hW, -⟩ := h.aarch64_emission hacc
    have hsize := hW.size
    unfold bufLimit at hsize
    obtain ⟨_, -, -, hmeets⟩ := emission_meets .relocationOutOfRange Aarch64.patch hW (by omega)
    refine Meets.mapErr (hmeets.mono (fun _ _ => trivial) ?_)
    rintro f ⟨r, -, rfl, -⟩ hpanic
    cases hpanic
  | riscV64 =>
    obtain ⟨W, hW, -⟩ := h.riscv_emission hacc
    have hsize := hW.size
    unfold bufLimit at hsize
    obtain ⟨_, -, -, hmeets⟩ := emission_meets .relocationOutOfRange Riscv.patch hW (by omega)
    refine Meets.mapErr (hmeets.mono (fun _ _ => trivial) ?_)
    rintro f ⟨r, -, rfl, -⟩ hpanic
    cases hpanic

/-- **The compiler never panics**, on any input, for both targets, with and without overflow
checks. -/
theorem compile_ne_panic (rawInsns : List RawInsn) (target : Target) :
    compile rawInsns target ≠ panic := by
  have hmeets : Meets (compile rawInsns target) (fun _ => True) (fun f => f ≠ .panic) := by
    have hdecode := (decodeProgram_meets rawInsns).mono (fun _ h => h)
      fun f hf => Fault.map_ne_panic (g := JitError.decode) hf
    refine (Meets.mapErr hdecode).bind fun insns hdec => ?_
    -- decoded programs are far shorter than a program on which the verifier panics
    have hsize : ¬ Oversized insns := by
      have hlen := hdec.length_le
      unfold maxInsns at hlen
      unfold Oversized
      omega
    have hverify := (verifyProgram_meets insns).mono (fun _ h => h) fun f hf =>
      Fault.map_ne_panic (g := JitError.verify) (mt hf hsize)
    refine (Meets.mapErr hverify).bind fun numBlocks hver => ?_
    have hacc : Accepted insns := ⟨hver.1, hdec.length_le, hdec.fromWire⟩
    have hlower := (lowerToIr_meets hacc (regmapForTarget target)).mono (fun _ h => h)
      fun f (hf : False) => (hf.elim : f.map Empty.elim ≠ (.panic : Fault JitError))
    refine (Meets.mapErr hlower).bind fun ir hir => ?_
    obtain ⟨flags, pcToBb, nodes, h⟩ := hir
    exact (h.emitForTarget_meets hacc target).bind fun code _ => Meets.ok trivial
  exact hmeets.ne_panic fun h => h rfl

end NVMirror
