import NVMirror.JitAarch64.Program
import NVMirror.JitEngine.Compile
import NVMirror.JitEngine.Soundness

/-!
# Compiled programs on AArch64

For programs on registers (`Insn.OnRegisters`) the three stages compose: the interpreter does not
depend on the registers the machine starts with (`InStep`), the lowered program runs in step with
the interpreter (`Lowering.run`), and the machine with the lowered program (`Aarch64.simulates`).
`compile_aarch64_correct` states the result.
-/

namespace NVMirror

open Rust Leaders

/-- Arithmetic, constants, jumps without bit tests, 32-bit jumps without signed comparisons, and
`Exit`. -/
def Insn.OnRegisters : Insn → Prop
  | .alu64 .. | .alu32 .. | .loadImm64 .. | .ja _ | .exit => True
  | .jmpCond op .. => op ≠ .jset
  | .jmpCond32 op .. => op ∈ [.jeq, .jne, .jgt, .jge, .jlt, .jle]
  | _ => False

instance : DecidablePred Insn.OnRegisters
  | .alu64 .. | .alu32 .. | .loadImm64 .. | .ja _ | .exit => inferInstanceAs (Decidable True)
  | .jmpCond op .. => inferInstanceAs (Decidable (op ≠ .jset))
  | .jmpCond32 op .. =>
    inferInstanceAs (Decidable (op ∈ [JmpOp.jeq, .jne, .jgt, .jge, .jlt, .jle]))
  | .load .. | .storeReg .. | .storeImm .. | .call _ | .tailCall | .atomic .. | .endian .. =>
    inferInstanceAs (Decidable False)

variable {insns : List Insn} {flags : List Bool} {pcToBb : List BasicBlockId}
  {nodes : ℕ → List IrNode} {ir : IrProgram}

/-! ### Lowered programs on registers -/

/-- The nodes of an instruction on registers. -/
theorem lowerInsn_onRegisters {frameSize : U16} (hframe : FrameSize frameSize) {pc : ℕ}
    {insn : Insn} (hon : insn.OnRegisters) {ns : List IrNode}
    (h : lowerInsn aarch64Regmap pcToBb frameSize pc insn = .ok ns) :
    ∀ node ∈ ns, Aarch64.NodeOnRegisters node := by
  have hle := hframe.le
  cases insn with
  | alu64 op dst src | alu32 op dst src =>
    cases h
    intro node hnode
    rw [List.mem_singleton.1 hnode]
    exact ⟨⟨dst, rfl⟩, src, rfl⟩
  | loadImm64 dst imm =>
    cases h
    intro node hnode
    rw [List.mem_singleton.1 hnode]
    exact ⟨dst, rfl⟩
  | jmpCond op dst src off | jmpCond32 op dst src off =>
    obtain ⟨t, -, h⟩ := bind_eq_ok.1 h
    cases h
    intro node hnode
    rw [List.mem_singleton.1 hnode]
    exact ⟨hon, ⟨dst, rfl⟩, src, rfl⟩
  | ja off =>
    obtain ⟨t, -, h⟩ := bind_eq_ok.1 h
    cases h
    intro node hnode
    rw [List.mem_singleton.1 hnode]
    trivial
  | exit =>
    cases h
    split_ifs
    · intro node hnode
      rcases List.mem_pair.1 hnode with rfl | rfl
      · show frameSize.toNat < 2 ^ 15
        omega
      · trivial
    · intro node hnode
      rw [List.mem_singleton.1 hnode]
      trivial
  | _ => exact hon.elim

/-- Epilogues come from `Exit`, with a frame, before `ret`. -/
theorem lowerInsn_epilogue {regmap : RegMap} {frameSize f : U16} {pc : ℕ} {insn : Insn}
    {ns : List IrNode} (h : lowerInsn regmap pcToBb frameSize pc insn = .ok ns) {k : ℕ}
    (hk : ns[k]? = some (.epilogue f)) : 0 < frameSize ∧ ns[k + 1]? = some .ret := by
  have hmem := List.mem_of_getElem? hk
  cases insn with
  | exit =>
    cases h
    split_ifs at hk hmem ⊢ with hf
    · rcases k with _ | _ | k
      · exact ⟨hf, rfl⟩
      · cases hk
      · cases hk
    · simp at hmem
  | ja off | jmpCond op dst src off | jmpCond32 op dst src off =>
    obtain ⟨t, -, h⟩ := bind_eq_ok.1 h
    cases h
    simp at hmem
  | _ =>
    cases h
    simp at hmem

theorem Lowering.onRegisters (h : Lowering insns aarch64Regmap flags pcToBb nodes ir)
    (hne : insns ≠ []) (hon : ∀ insn ∈ insns, insn.OnRegisters) : Aarch64.OnRegisters ir where
  node := by
    intro node hnode
    obtain ⟨j, hj⟩ := List.getElem?_of_mem hnode
    rcases h.code_cases hne hj with ⟨-, rfl⟩ | ⟨pc, insn, k, hget, hk, -⟩
    · have hle := h.frameSize.le
      show ir.frameSize.toNat < 2 ^ 15
      omega
    · exact lowerInsn_onRegisters h.frameSize (hon insn (List.mem_of_getElem? hget))
        (h.lower_eq pc insn hget) node (List.mem_of_getElem? hk)
  prologue := by
    intro hf
    rw [IrProgram.code, h.flatMap_nodes hne, prologueOf, if_pos hf]
    rfl
  epilogue := by
    intro j f hj
    rcases h.code_cases hne hj with ⟨-, heq⟩ | ⟨pc, insn, k, hget, hk, rfl⟩
    · cases heq
    · obtain ⟨hf, hret⟩ := lowerInsn_epilogue (h.lower_eq pc insn hget) hk
      have hpc := (List.getElem?_eq_some_iff.1 hget).1
      have hlt := (List.getElem?_eq_some_iff.1 hret).1
      refine ⟨hf, ?_⟩
      rw [Nat.add_assoc, h.code_getElem? hne hpc hlt, hret]

/-! ### Compiled programs -/

variable [Profile]

/-- What the compiler produced: a lowered program and its finished code. -/
theorem compile_aarch64_image {raw : List RawInsn} {out : JitOutput}
    (hdec : decodeProgram raw = .ok insns) (hout : compile raw .aArch64 = .ok out) :
    Accepted insns ∧ ∃ flags pcToBb nodes W ws,
      Lowering insns aarch64Regmap flags pcToBb nodes out.ir ∧
      Emission Aarch64.emitNode out.ir.code W Aarch64.branchOf bufLimit ∧
      out.code = ofWords ws ∧ Image W Aarch64.branchOf Aarch64.patch out.ir ws := by
  obtain ⟨hacc, hir, hcode⟩ := compile_stages hdec hout
  obtain ⟨flags, pcToBb, nodes, h⟩ := (lowerToIr_meets hacc _).of_ok hir
  obtain ⟨W, hem, -⟩ := h.aarch64_emission hacc
  have hsize := hem.size
  unfold bufLimit at hsize
  obtain ⟨bbOffsets, hlabels, -, hmeets⟩ :=
    emission_meets .relocationOutOfRange Aarch64.patch hem (by omega)
  obtain ⟨ws, hws, hpatched⟩ := hmeets.of_ok (mapErr_eq_ok.1 hcode)
  refine ⟨hacc, flags, pcToBb, nodes, W, ws, h, hem, hws, ?_⟩
  refine image_of_patched hem (fun i j b b' hb hb' hid => ?_) hlabels hpatched
  rw [← h.block_id hacc hb, ← h.block_id hacc hb', hid]

/-- **Compiled programs compute what the interpreter computes.**  Let a program on registers be
compiled for AArch64, and let the interpreter, with wrapping negation, come to `Exit` from some
registers and stack.  A machine that starts the compiled code with the same `R1` in `X0` and `R10`
in `X25`, and with anything in the other registers, the flags and memory, comes to `RET` with the
interpreter's `R0` in `X0` and its first link register in `X30`. -/
theorem compile_aarch64_correct {raw : List RawInsn} {out : JitOutput}
    (hdec : decodeProgram raw = .ok insns) (hout : compile raw .aArch64 = .ok out)
    (hon : ∀ insn ∈ insns, insn.OnRegisters) (stackPtr : U64) {regs : BpfReg → U64}
    {stack : Fin stackSize → U8} {k : ℕ} {s : InterpreterState}
    (hrun : @stepN release stackPtr insns (.start regs stack) k = .ok s) (hexit : Exited insns s)
    {m : Aarch64.Machine} (hpc : m.pc = 0) (hx0 : m.x 0 = regs BpfReg.r1)
    (hx25 : m.x 25 = regs BpfReg.r10) :
    ∃ j m', steps (Aarch64.step out.code) m j = .ok m' ∧ Aarch64.AtRet out.code m' ∧
      m'.x 0 = s.regs BpfReg.r0 ∧ m'.x 30 = m.x 30 := by
  obtain ⟨hacc, flags, pcToBb, nodes, W, ws, h, hem, hcode, himg⟩ :=
    compile_aarch64_image hdec hout
  rcases m with ⟨c, pc⟩
  dsimp only at hpc hx0 hx25
  subst hpc
  -- the interpreter, started with the registers of the machine
  let regs' : BpfReg → U64 := fun r => c.x (Aarch64.xreg r)
  have hstart : InStep insns (.start regs stack) (.start regs' stack) :=
    InStep.start stack hx0.symm hx25.symm
  have hrel := @InStep.stepN release stackPtr _ hacc.toVerified _ _ hstart k
  rw [hrun] at hrel
  cases hrun' : @stepN release stackPtr insns (.start regs' stack) k with
  | error f =>
    rw [hrun'] at hrel
    exact hrel.elim
  | ok s' =>
    rw [hrun'] at hrel
    obtain ⟨I, hagree, -, hr0⟩ := hrel
    -- the lowered program
    let t : IrState := ⟨0, fun p => Aarch64.operandVal c (.reg p), stack⟩
    have hregs : ∀ r, t.regs (aarch64Regmap.phys r) = regs' r := by
      intro r
      rw [Aarch64.phys_eq]
      exact Aarch64.operandVal_physOf c (Aarch64.xreg r)
    obtain ⟨j, t', ht', hal⟩ := @Lowering.run _ _ _ _ _ _ release h hacc aarch64Regmap_injective
      (.plain aarch64Regmap stackPtr) _ t rfl hregs _ _ hrun'
    have hhalt : s'.halted = true := hagree.halted.symm.trans hexit.1
    have hret := hal.atRet h hacc.ne_nil hhalt
    -- the machine
    have hsim := Aarch64.simulates hem himg (h.onRegisters hacc.ne_nil hon) stackPtr (c.x 30)
    have hmatch : Aarch64.Matches W out.ir (c.x 30) t ⟨c, 0⟩ :=
      .start rfl ⟨fun r => (hregs r).symm, rfl⟩
    obtain ⟨j', m₁, hsteps, hmatch'⟩ := hsim.of_steps hmatch ht'
    obtain ⟨j'', m', hsteps', hatRet, hresult, hlink⟩ := hmatch'.atRet hem himg hret
    rw [hcode]
    refine ⟨j' + j'', m', steps_trans hsteps hsteps', hatRet, ?_, hlink⟩
    rw [hresult, hal.regs BpfReg.r0, hagree.regs _ (hr0 hexit)]

/-- A machine with 0 in `X0` and `X25` and 5 in the other registers. -/
def Aarch64.Machine.garbage : Aarch64.Machine where
  x r := if r = 0 ∨ r = 25 then 0 else 5
  flags := ⟨false, false, false, false⟩
  mem _ := 5
  pc := 0

omit [Profile] in
/-- `compile_aarch64_correct` at the program `jumpOverLddw`: the machine returns 0. -/
theorem compile_aarch64_correct_jumpOverLddw :
    ∃ out, @compile debug jumpOverLddw .aArch64 = .ok out ∧
      ∃ j m', steps (Aarch64.step out.code) .garbage j = .ok m' ∧ Aarch64.AtRet out.code m' ∧
        m'.x 0 = 0 ∧ m'.x 30 = 5 := by
  have hok : (@compile debug jumpOverLddw .aArch64).isOk = true := by
    decide +kernel
  obtain ⟨out, hout⟩ : ∃ out, @compile debug jumpOverLddw .aArch64 = .ok out := by
    cases h : @compile debug jumpOverLddw .aArch64 with
    | ok out => exact ⟨out, rfl⟩
    | error f =>
      rw [h] at hok
      cases hok
  refine ⟨out, hout, ?_⟩
  have hon : ∀ insn ∈ jumpOverLddwInsns, insn.OnRegisters := by
    decide
  exact @compile_aarch64_correct _ debug _ _ decode_jumpOverLddw hout hon 0 (fun _ => 0)
    (fun _ => 0) 3 _ rfl ⟨rfl, rfl⟩ .garbage rfl rfl rfl

end NVMirror
