import NVMirror.JitEngine.Riscv
import NVMirror.JitRiscv.Relocation

/-!
# Relocation of compiled programs

`riscv_relocation_iff`: in the RISC-V code of a compiled program every branch leads to the first
word of its target, but for jumps in the class of 32-bit jumps.  These are lowered to conditional
branches, emitted as `JAL` and patched as conditional branches.
-/

namespace NVMirror

open Rust

/-- The operands of a branch come from those of an instruction. -/
theorem branchCond_of_lowerInsn {regmap : RegMap} {pcToBb : List BasicBlockId} {f : U16} {pc : ℕ}
    {insn : Insn} {ns : List IrNode} (h : lowerInsn regmap pcToBb f pc insn = .ok ns)
    {cond : BranchCond} {t : BasicBlockId} (hmem : .branch cond t ∈ ns) :
    ∃ op dst src is32bit, cond = ⟨op, regmap.phys dst, regmap.translateSource src, is32bit⟩ := by
  cases insn with
  | jmpCond op dst src off | jmpCond32 op dst src off =>
    obtain ⟨t', -, h⟩ := bind_eq_ok.1 h
    cases h
    cases List.mem_singleton.1 hmem
    exact ⟨op, dst, src, _, rfl⟩
  | ja off =>
    obtain ⟨t', -, h⟩ := bind_eq_ok.1 h
    cases h
    cases List.mem_singleton.1 hmem
  | exit =>
    cases h
    split_ifs at hmem <;> simp at hmem
  | tailCall =>
    cases h
    simp at hmem
  | _ =>
    cases h
    cases List.mem_singleton.1 hmem

/-- The branches of a lowered program are on registers of the map. -/
theorem Lowering.branch_onRegisters {insns : List Insn} {flags : List Bool}
    {pcToBb : List BasicBlockId} {nodes : ℕ → List IrNode} {ir : IrProgram}
    (h : Lowering insns riscv64Regmap flags pcToBb nodes ir) (hne : insns ≠ []) {cond : BranchCond}
    {t : BasicBlockId} (hmem : .branch cond t ∈ ir.code) : Riscv.BranchCond.OnRegisters cond := by
  obtain ⟨j, hj⟩ := List.getElem?_of_mem hmem
  rcases h.code_cases hne hj with ⟨-, heq⟩ | ⟨pc, insn, k, hget, hk, -⟩
  · cases heq
  · obtain ⟨op, dst, src, is32bit, rfl⟩ :=
      branchCond_of_lowerInsn (h.lower_eq pc insn hget) (List.mem_of_getElem? hk)
    refine ⟨⟨_, Riscv.phys_eq dst⟩, fun p hp => ?_⟩
    cases src with
    | reg r => exact ⟨_, (Operand.reg.inj hp).symm.trans (Riscv.phys_eq r)⟩
    | imm v => cases hp

variable [Profile] {raw : List RawInsn} {insns : List Insn} {out : JitOutput}

/-- The emitter `e` wrote the words `W` of each node and recorded the branches; patching them gave
the words `ws` of the code. -/
structure Riscv.Emitted (out : JitOutput) (W : IrNode → List U32) (e : Riscv.RiscVEmitter)
    (ws : List U32) : Prop where
  words : Emission Riscv.emitNode out.ir.code W Riscv.branchOf bufLimit
  emit : Riscv.emitProgram .new out.ir = .ok e
  buf : e.buf = ofWords (out.ir.code.flatMap W)
  relocations : e.relocations = relocs W Riscv.branchOf 0 out.ir.code
  finalize : Riscv.finalize e = .ok out.code
  code : out.code = ofWords ws

theorem compile_riscv_emitted (hdec : decodeProgram raw = .ok insns)
    (hout : compile raw .riscV64 = .ok out) :
    ∃ W e ws, Riscv.Emitted out W e ws ∧ Image W Riscv.branchOf Riscv.patch out.ir ws ∧
      ∀ cond t, .branch cond t ∈ out.ir.code → Riscv.BranchCond.OnRegisters cond := by
  obtain ⟨hacc, -, flags, pcToBb, nodes, W, ws, h, hem, hws, himg⟩ :=
    compile_riscv_image hdec hout
  obtain ⟨bbOffsets, hemit, -⟩ := emitProgram_eq hem
  have hcode := mapErr_eq_ok.1 (compile_stages hdec hout).2.2
  replace hemit : Riscv.emitProgram .new out.ir = .ok _ := hemit
  rw [hemit, ok_bind] at hcode
  exact ⟨W, _, ws, ⟨hem, hemit, rfl, rfl, hcode, hws⟩, himg,
    fun cond t hmem => h.branch_onRegisters hacc.ne_nil hmem⟩

/-- **Relocation of compiled RISC-V code** is exact iff every jump of the 32-bit class has a
displacement that is not negative, less than 2048 and a multiple of 32. -/
theorem riscv_relocation_iff (hdec : decodeProgram raw = .ok insns)
    (hout : compile raw .riscV64 = .ok out) :
    ∃ W e ws, Riscv.Emitted out W e ws ∧
      (Riscv.Relocated W out.ir ws ↔ ∀ (j : ℕ) cond t ip,
        out.ir.code[j]? = some (.branch cond t) → cond.op = .ja → out.ir.entry t = some ip →
          Riscv.SameInBoth (displacement W out.ir.code j (.branch cond t) ip)) := by
  obtain ⟨W, e, ws, hemitted, himg, hregs⟩ := compile_riscv_emitted hdec hout
  exact ⟨W, e, ws, hemitted, Riscv.relocated_iff hemitted.words himg hregs⟩

/-! ### A jump of the 32-bit class -/

/-- `r0 = 7; if32 ja +1; r0 = 8; exit`. -/
def jumpWord : List RawInsn :=
  [⟨0xb7, 0, 0, 7⟩, ⟨0x06, 1, 1, 0⟩, ⟨0xb7, 0, 0, 8⟩, ⟨0x95, 0, 0, 0⟩]

/-- `jumpWord`, decoded. -/
def jumpWordInsns : List Insn :=
  [.alu64 .mov BpfReg.r0 (.imm 7), .jmpCond32 .ja BpfReg.r1 (.imm 0) 1,
    .alu64 .mov BpfReg.r0 (.imm 8), .exit]

/-- `jumpWord`, compiled for RISC-V. -/
def jumpWordOut : JitOutput where
  code := ofWords [0x00700513, 0x00000B93, 0x0000046F, 0x00800513, 0x00008067]
  ir := ⟨[⟨⟨0⟩, [.alu64 .mov ⟨10⟩ (.imm 7), .branch ⟨.ja, ⟨11⟩, .imm 0, true⟩ ⟨2⟩]⟩,
    ⟨⟨1⟩, [.alu64 .mov ⟨10⟩ (.imm 8)]⟩, ⟨⟨2⟩, [.ret]⟩], 0⟩
  numBlocks := 3

omit [Profile] in
theorem decode_jumpWord : decodeProgram jumpWord = .ok jumpWordInsns := by
  decide +kernel

omit [Profile] in
theorem compile_jumpWord : @compile debug jumpWord .riscV64 = .ok jumpWordOut := by
  have h : (@compile debug jumpWord .riscV64).toOption = some jumpWordOut := by
    decide +kernel
  exact ok_of_toOption h

omit [Profile] in
/-- `riscv_relocation_iff` at `jumpWord`. -/
theorem riscv_relocation_iff_jumpWord :
    ∃ W e ws, @Riscv.Emitted debug jumpWordOut W e ws ∧
      (Riscv.Relocated W jumpWordOut.ir ws ↔ ∀ (j : ℕ) cond t ip,
        jumpWordOut.ir.code[j]? = some (.branch cond t) → cond.op = .ja →
          jumpWordOut.ir.entry t = some ip →
            Riscv.SameInBoth (displacement W jumpWordOut.ir.code j (.branch cond t) ip)) :=
  @riscv_relocation_iff debug _ _ _ decode_jumpWord compile_jumpWord

/-- The word of a short constant. -/
theorem emits_mov (limit : ℕ) (dst : PhysReg) {v : I64} (h0 : v ≠ 0)
    (h : Riscv.IsShort v) :
    Emits Riscv.emitNode limit (.alu64 .mov dst (.imm v))
      [Riscv.addi dst.num 0 (v.setWidth 32)] none := by
  intro e _
  have hshort : -2048 ≤ v.toInt ∧ v.toInt < 2048 := h
  rw [Riscv.emitNode, Riscv.emitAlu64Node, Riscv.emitLoadImm64, if_neg h0, if_pos hshort,
    pure_eq, ok_bind, Emitter.emitWords_eq]
  rfl

omit [Profile] in
/-- **The jump leads nowhere**: it is a `JAL` to itself that links through `s0`. -/
theorem jumpWord_not_relocated :
    (decodeProgram jumpWord = .ok jumpWordInsns ∧ verifyProgram jumpWordInsns = .ok 3) ∧
    @compile debug jumpWord .riscV64 = .ok jumpWordOut ∧
      ∃ W e ws, @Riscv.Emitted debug jumpWordOut W e ws ∧
        ¬ Riscv.Relocated W jumpWordOut.ir ws := by
  have hverify : verifyProgram jumpWordInsns = .ok 3 := by
    have h : (verifyProgram jumpWordInsns).toOption = some 3 := by
      decide +kernel
    exact ok_of_toOption h
  obtain ⟨W, e, ws, hemitted, himg, hregs⟩ :=
    @compile_riscv_emitted debug _ _ _ decode_jumpWord compile_jumpWord
  refine ⟨⟨decode_jumpWord, hverify⟩, compile_jumpWord, W, e, ws, hemitted, fun hrel => ?_⟩
  have hem := @Riscv.Emitted.words debug _ _ _ _ hemitted
  obtain ⟨-, -, hmod⟩ := (@Riscv.relocated_iff debug _ _ _ _ hem himg hregs).1 hrel 1 _ _ 3 rfl rfl
    rfl
  -- one word between the jump and its target
  have hmov := hem.words_eq (show IrNode.alu64 .mov ⟨10⟩ (.imm 8) ∈ jumpWordOut.ir.code by decide)
    (@emits_mov debug bufLimit ⟨10⟩ 8 (by decide) (by decide))
  have h₂ : wordPos W jumpWordOut.ir.code 2 = _ := wordPos_succ (j := 1) rfl
  have h₃ : wordPos W jumpWordOut.ir.code 3 = _ := wordPos_succ (j := 2) rfl
  rw [hmov, List.length_singleton] at h₃
  have hne := hem.ne_nil (.branch ⟨.ja, ⟨11⟩, .imm 0, true⟩ ⟨2⟩) (by decide) (by decide)
  have hpos := List.length_pos_iff.2 hne
  unfold displacement at hmod
  omega

end NVMirror
