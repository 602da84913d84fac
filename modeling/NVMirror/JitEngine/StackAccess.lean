import NVMirror.EbpfCore.StackFrame
import NVMirror.JitAarch64.FullProgram
import NVMirror.JitEngine.Aarch64
import NVMirror.JitEngine.Riscv

/-!
# Stack accesses of compiled code

Both prologues allocate a frame and save registers in it, but neither sets up the register of `R10`
(`X25`, `s6`).  So an access through `R10` is in the frame exactly if the caller happens to pass a
suitable address (`stackAccess_fits_iff`).

* `AccessFits`: an access lies in the frame, outside the slots of the saved registers.
* `AtStackAccess`: the machine is at a node that accesses memory through `R10`.
* `Riscv.keepsStack`: the code for RISC-V keeps the stack, as that for AArch64 does.
-/

namespace NVMirror

open Rust Leaders Temporal Bytes

/-! ### Statement -/

/-- All bytes of an access at `r10 + off` lie in the frame of `f` bytes at `sp`, and none in the
slots, of 8 bytes each. -/
def AccessFits (f : U16) (slots : List ℕ) (sp r10 : U64) (off : I16) (width : MemWidth) : Prop :=
  ∀ i < width.byteLen, (accessByte r10 off i - sp).toNat < f.toNat ∧
    ∀ slot ∈ slots, 8 ≤ (accessByte r10 off i - addrAt sp slot).toNat

instance (f : U16) (slots : List ℕ) (sp r10 : U64) (off : I16) (width : MemWidth) :
    Decidable (AccessFits f slots sp r10 off width) :=
  inferInstanceAs (Decidable (∀ i < width.byteLen, _))

/-- The offset is that of a word of a node that accesses memory through `R10`. -/
def AtStackAccess (regmap : RegMap) (offset : ℕ → ℕ) (ir : IrProgram) (pc : ℤ) (off : I16)
    (width : MemWidth) : Prop :=
  ∃ j node, ir.code[j]? = some node ∧
    node.memAccess = some (regmap.phys BpfReg.r10, off, width) ∧
    (offset j : ℤ) ≤ pc ∧ pc < (offset (j + 1) : ℤ)

/-- Offsets, from the stack pointer, of the slots of the saved registers. -/
def Aarch64.slotOffsets : List ℕ := frameSlots.map Prod.fst

def Riscv.slotOffsets (f : U16) : List ℕ := frameSlots.map fun slot => f.toNat - slot.1

namespace Riscv

/-- A step in an environment in which functions give back the callee-saved registers, and not from
a conditional branch with the operation `Ja`. -/
structure CleanStep [Profile] (ir : IrProgram) (code : List U8) (m m' : Machine) : Prop where
  moves : Moves Env.CallsReturn code m m'
  node : ∀ j node, ir.code[j]? = some node → m.pc = nodeOffset emitNode ir.code j →
    isJaBranch node = false

/-! ### RISC-V -/

variable [Profile] {insns : List Insn} {flags : List Bool} {pcToBb : List BasicBlockId}
  {nodes : ℕ → List IrNode} {ir : IrProgram} {W : IrNode → List U32} {ws : List U32} {limit : ℕ}
  {E : Env → Prop} {I : Cpu → Prop}

/-- **The nodes of an instruction** keep what depends on the stack pointer and the register of `R10`
only. -/
theorem keeps_stack (h : Lowering insns riscv64Regmap flags pcToBb nodes ir)
    (hacc : Accepted insns) (hem : Emission emitNode ir.code W branchOf limit)
    (hlimit : limit < 2 ^ 30) (hE : ∀ env, E env → env.CallsReturn) {pc : ℕ} {insn : Insn}
    (hget : insns[pc]? = some insn) (hexit : insn ≠ .exit) {node : IrNode} (hns : nodes pc = [node])
    {j : ℕ} (hj : ir.code[j]? = some node) (hja : isJaBranch node = false)
    (hI : ∀ c c' : Cpu, c'.x 2 = c.x 2 → c'.x 22 = c.x 22 → I c → I c') :
    NodeKeeps E I W node := by
  have h10 := hacc.not_writes hget
  have hxreg : ∀ d : BpfReg, (2 : Reg) ≠ xreg d ∧ (d ≠ BpfReg.r10 → (22 : Reg) ≠ xreg d) := by
    decide
  have hlow := h.lower_eq pc insn hget
  rw [hns] at hlow
  by_cases hplain : insn.isPlain
  · refine keeps_plain h hacc hem hget hplain hexit hns hja fun S hS c c' hsame => ?_
    have hout : ∀ r ∈ ({2, 22} : Set Reg), r ∉ S := by
      rintro r hr hmem
      rcases hS r hmem with ⟨rfl, -⟩ | ⟨d, rfl, hd, -⟩
      · exact absurd hr (by decide)
      · rcases hr with hr | hr
        · exact (hxreg d).1 hr.symm
        · exact (hxreg d).2 hd hr.symm
    exact hI c c' (hsame.x 2 (hout 2 (Or.inl rfl))) (hsame.x 22 (hout 22 (Or.inr rfl)))
  cases insn with
  | load width d s off =>
    cases hlow
    exact keeps_load hem rfl hj fun c c' hsame =>
      hI c c' (hsame 2 (hxreg d).1) (hsame 22 ((hxreg d).2 (Ne.symm h10)))
  | storeReg width d s off =>
    cases hlow
    exact keeps_store hem rfl hj fun c c' hsame => hI c c' (congrFun hsame 2) (congrFun hsame 22)
  | storeImm width d off imm =>
    cases hlow
    exact keeps_storeImm hem rfl hj fun c c' hsame =>
      hI c c' (hsame 2 (by decide)) (hsame 22 (by decide))
  | atomic width op d s off =>
    cases hlow
    exact keeps_atomic hem hlimit rfl hj fun c c' hsame =>
      hI c c' (hsame 2 (by decide)) (hsame 22 (by decide))
  | call funcId =>
    cases hlow
    refine keeps_call hem hj fun env a c v henv hc => hI c _ ?_ ?_ hc
    · exact (hE env henv a _ 2 (by decide)).trans (c.set_x_of_ne v (by decide))
    · exact (hE env henv a _ 22 (by decide)).trans (c.set_x_of_ne v (by decide))
  | tailCall => exact absurd rfl (hacc.ne_tailCall hget)
  | exit => exact absurd rfl hexit
  | _ => exact absurd rfl hplain

/-- **A prologue**, from its second instruction on. -/
theorem until_prologue {R : Machine → Machine → Prop}
    (hR : ∀ m m', R m m' → Moves E (ofWords ws) m m')
    (hem : Emission emitNode ir.code W branchOf limit) (himg : Image W branchOf patch ir ws)
    {f : U16} (hf : FrameSize f) (hpos : 0 < f) (hj : ir.code[0]? = some (.prologue f)) {c : Cpu}
    {u : Machine} (hu : R (atNode Machine.mk W ir 0 c) u) :
    Until R (fun m => 0 < m.pc ∧ AtNode W ir.code 0 m.pc)
      (fun m => ∃ c' : Cpu, (c'.x 2 = c.x 2 - BitVec.ofNat 64 f.toNat ∧ c'.x 22 = c.x 22) ∧
        m = atNode Machine.mk W ir 1 c') u := by
  have hW := prologue_words hem hj
  have hcode := codeAt_node himg hj (List.append_nil _).symm (Or.inl rfl)
  have hline := prologue_line hf hpos c
  rw [hW] at hcode
  obtain ⟨w, rest, hwords⟩ := List.exists_cons_of_ne_nil (show prologueWords f ≠ [] by
    simp [prologueWords])
  rw [hwords] at hcode hline
  cases hline with
  | @cons _ i _ _ _ hdecode hstraight hrest =>
    have hnext : ∀ k : ℕ, 4 * (wordPos W ir.code 0 : ℤ) + 4 + 4 * (k : ℤ) =
        4 * (wordPos W ir.code 0 : ℤ) + 4 * ((k + 1 : ℕ) : ℤ) := by
      intro k
      push_cast
      ring
    have hlen : (W (.prologue f)).length = rest.length + 1 := by
      rw [hW, hwords, List.length_cons]
    rw [(hR _ _ hu).eq_straight hcode.head hdecode hstraight]
    refine hrest.until hR (fun k w' hk => ?_) (fun k c hk _ => ⟨?_, ?_⟩)
      ⟨afterPrologue f c, ⟨rfl, rfl⟩, ?_⟩
    · rw [hnext]
      exact hcode (k + 1) w' hk
    · dsimp only
      omega
    · rw [hnext]
      exact atNode_word hj (by omega)
    · have hsucc : wordPos W ir.code 1 = wordPos W ir.code 0 + (rest.length + 1) := by
        rw [← hlen]
        exact wordPos_succ hj
      rw [hnext, atNode, hsucc]
      congr 1
      push_cast
      ring

/-- **Clean steps** keep the stack. -/
theorem keepsStack (h : Lowering insns riscv64Regmap flags pcToBb nodes ir) (hacc : Accepted insns)
    (hem : Emission emitNode ir.code W branchOf limit) (hlimit : limit < 2 ^ 30)
    (himg : Image W branchOf patch ir ws) :
    KeepsStack Machine.mk Machine.pc Machine.toCpu (fun c => c.x 2) (fun c => c.x 22)
      (CleanStep ir (ofWords ws)) W ir insns nodes where
  pcOf_mk _ _ := rfl
  prologue_ne hj := by
    rw [prologue_words hem hj]
    exact List.cons_ne_nil _ _
  prologue hf hj _ _ hu := until_prologue (fun _ _ hm => hm.moves) hem himg h.frameSize hf hj hu
  node := by
    intro pc insn node hget hexit hns j hj c
    refine Or.inr ?_
    cases hja : isJaBranch node with
    | false =>
      have hkeeps : NodeKeeps Env.CallsReturn (fun c' => c'.x 2 = c.x 2 ∧ c'.x 22 = c.x 22) W
          node :=
        keeps_stack h hacc hem hlimit (fun _ hE => hE) hget hexit hns hj hja
          fun c₁ c₂ hsp hr h₁ => ⟨hsp.trans h₁.1, hr.trans h₁.2⟩
      exact hkeeps.leaves himg (fun _ _ hm => hm.moves) hj (fun m hat hI _ => ⟨hat, fun _ => hI⟩)
        (fun j' c' hnext hI => ⟨j', c', hnext, hI, rfl⟩) ⟨rfl, rfl⟩
    | true =>
      -- no clean step starts here
      have hne : W node ≠ [] := by
        refine hem.ne_nil node (List.mem_of_getElem? hj) ?_
        cases node with
        | branch cond t => simp [branchOf]
        | _ => cases hja
      have hat := atNode_word hj (List.length_pos_iff.2 hne)
      rw [Nat.cast_zero, mul_zero, add_zero] at hat
      refine ⟨⟨hat, fun _ => ⟨rfl, rfl⟩⟩, fun u hu => ?_⟩
      have hno := hu.node j node hj (by rw [nodeOffset_eq hem]; push_cast; rfl)
      rw [hja] at hno
      cases hno
  epilogue := by
    intro hf j hj c
    obtain ⟨c', hline, -⟩ := epilogue_line h.frameSize hf c
    have hW := epilogue_words hem hj
    rw [← hW] at hline
    have hcode := codeAt_node himg hj (List.append_nil _).symm (Or.inl rfl)
    refine hline.leaves (fun _ _ hm => hm.moves) hcode ?_ (fun k c hk _ => atNode_word hj hk)
      ⟨c', ?_⟩
    · rw [hW]
      exact List.cons_ne_nil _ _
    · rw [atNode, wordPos_succ hj]
      push_cast
      rw [mul_add]
  ret hj c P := by
    have hat := atNode_word hj (show 0 < (W .ret).length by rw [words_ret hem hj]; decide)
    rw [Nat.cast_zero, mul_zero, add_zero] at hat
    exact leaves_ret hem himg (fun _ _ hm => hm.moves) hj hat
  stop hj _ P := leaves_end himg (fun _ _ hm => hm.moves) hj fun _ hm _ => hm

end Riscv

/-! ### Compiled programs -/

variable {insns : List Insn}

/-- An instruction with such a node accesses memory through `R10`. -/
theorem stackOff_of_memAccess {regmap : RegMap} (hinj : Function.Injective regmap.map)
    {pcToBb : List BasicBlockId} {f : U16} {pc : ℕ} {insn : Insn} {ns : List IrNode}
    (h : lowerInsn regmap pcToBb f pc insn = .ok ns) {node : IrNode} (hnode : node ∈ ns) {off : I16}
    {width : MemWidth} (hmem : node.memAccess = some (regmap.phys BpfReg.r10, off, width)) :
    stackOff insn = some off := by
  have hbase : ∀ {r : BpfReg} {o : I16} {width' : MemWidth},
      some (regmap.phys r, o, width') = some (regmap.phys BpfReg.r10, off, width) →
        r = BpfReg.r10 ∧ o = off := fun heq =>
    ⟨hinj (congrArg Prod.fst (Option.some.inj heq)),
      congrArg (fun x => x.2.1) (Option.some.inj heq)⟩
  cases insn with
  | load width' d s o | storeReg width' d s o | storeImm width' d o imm | atomic width' op d s o =>
    cases h
    rw [List.mem_singleton] at hnode
    subst hnode
    obtain ⟨rfl, rfl⟩ := hbase hmem
    rfl
  | jmpCond op d src o | jmpCond32 op d src o | ja o =>
    obtain ⟨t, -, h⟩ := bind_eq_ok.1 h
    cases h
    rw [List.mem_singleton] at hnode
    subst hnode
    cases hmem
  | exit =>
    cases h
    split_ifs at hnode <;> simp only [List.mem_cons, List.not_mem_nil, or_false] at hnode
    · rcases hnode with rfl | rfl <;> cases hmem
    · subst hnode
      cases hmem
  | tailCall =>
    cases h
    simp only [List.mem_cons, List.not_mem_nil, or_false] at hnode
    rcases hnode with rfl | rfl <;> cases hmem
  | _ =>
    cases h
    rw [List.mem_singleton] at hnode
    subst hnode
    cases hmem

/-- A program with an access through `R10` has a frame. -/
theorem Lowering.frame_pos {regmap : RegMap} {flags : List Bool} {pcToBb : List BasicBlockId}
    {nodes : ℕ → List IrNode} {ir : IrProgram} (h : Lowering insns regmap flags pcToBb nodes ir)
    (hne : insns ≠ []) (hinj : Function.Injective regmap.map) (hof : FrameOf insns ir.frameSize)
    {j : ℕ} {node : IrNode} (hj : ir.code[j]? = some node) {off : I16} {width : MemWidth}
    (hmem : node.memAccess = some (regmap.phys BpfReg.r10, off, width)) : 0 < ir.frameSize := by
  by_contra hf
  have hzero : ir.frameSize = 0 := BitVec.eq_of_toNat_eq (Nat.le_zero.1 (BitVec.not_lt.1 hf))
  rcases h.code_cases hne hj with ⟨hpos, -⟩ | ⟨pc, insn, k, hget, hk, -⟩
  · exact hf hpos
  · have hno := (hof.eq_zero_iff.1 hzero insn (List.mem_of_getElem? hget)).1
    rw [stackOff_of_memAccess hinj (h.lower_eq pc insn hget) (List.mem_of_getElem? hk) hmem] at hno
    cases hno

theorem riscv64Regmap_injective : Function.Injective riscv64Regmap.map := by
  decide

/-- **Stack accesses**: on every run of clean steps from the first instruction, an access through
`R10` is in the frame, clear of the saved registers, exactly if the address that the caller passed
in the register of `R10` is suitable for the stack pointer after the prologues that have run. -/
theorem stackAccess_fits_iff [Profile] {raw : List RawInsn} (hdec : decodeProgram raw = .ok insns) :
    (∀ out, compile raw .aArch64 = .ok out → ∀ (m₀ m : Aarch64.Machine) (n : ℕ), m₀.pc = 0 →
      Relation.ReflTransGen (Counted (Aarch64.Full.CleanStep out.ir out.code) fun m => m.pc = 0)
        (m₀, 0) (m, n) → ∀ off width,
      AtStackAccess aarch64Regmap (nodeOffset Aarch64.emitNode out.ir.code) out.ir m.pc off width →
      (AccessFits out.ir.frameSize Aarch64.slotOffsets (m.x 31) (m.x 25) off width ↔
        AccessFits out.ir.frameSize Aarch64.slotOffsets
          (m₀.x 31 - BitVec.ofNat 64 (n * out.ir.frameSize.toNat)) (m₀.x 25) off width)) ∧
    ∀ out, compile raw .riscV64 = .ok out → ∀ (m₀ m : Riscv.Machine) (n : ℕ), m₀.pc = 0 →
      Relation.ReflTransGen (Counted (Riscv.CleanStep out.ir out.code) fun m => m.pc = 0)
        (m₀, 0) (m, n) → ∀ off width,
      AtStackAccess riscv64Regmap (nodeOffset Riscv.emitNode out.ir.code) out.ir m.pc off width →
      (AccessFits out.ir.frameSize (Riscv.slotOffsets out.ir.frameSize) (m.x 2) (m.x 22) off width ↔
        AccessFits out.ir.frameSize (Riscv.slotOffsets out.ir.frameSize)
          (m₀.x 2 - BitVec.ofNat 64 (n * out.ir.frameSize.toNat)) (m₀.x 22) off width) := by
  have hat : ∀ {W : IrNode → List U32} {code : List IrNode} {offset : ℕ → ℕ} {j : ℕ} {pc : ℤ},
      (∀ j, offset j = 4 * wordPos W code j) → (offset j : ℤ) ≤ pc → pc < (offset (j + 1) : ℤ) →
      AtNode W code j pc := by
    intro W code offset j pc hoff hlow hhigh
    rw [hoff] at hlow hhigh
    push_cast at hlow hhigh
    exact ⟨hlow, hhigh⟩
  constructor
  · rintro out hout ⟨c₀, pc⟩ m n hpc hrun off width ⟨j, node, hj, hmem, hlow, hhigh⟩
    dsimp only at hpc
    subst hpc
    obtain ⟨hacc, flags, pcToBb, nodes, W, ws, h, hem, hcode, himg⟩ :=
      compile_aarch64_image hdec hout
    obtain ⟨-, hir, -⟩ := compile_stages hdec hout
    have hf := h.frame_pos hacc.ne_nil aarch64Regmap_injective (lowerToIr_frameOf hacc hir) hj hmem
    have hne : node.memAccess ≠ none := by
      rw [hmem]
      exact Option.some_ne_none _
    rw [hcode] at hrun
    obtain ⟨hsp, hr⟩ := (Aarch64.Full.keepsStack h hacc hem himg).stack_eq h hacc hf hrun hj hne
      (hat (nodeOffset_eq hem) hlow hhigh)
    rw [hsp, hr]
  · rintro out hout ⟨c₀, pc⟩ m n hpc hrun off width ⟨j, node, hj, hmem, hlow, hhigh⟩
    dsimp only at hpc
    subst hpc
    obtain ⟨hacc, hof, flags, pcToBb, nodes, W, ws, h, hem, hcode, himg⟩ :=
      compile_riscv_image hdec hout
    have hf := h.frame_pos hacc.ne_nil riscv64Regmap_injective hof hj hmem
    have hne : node.memAccess ≠ none := by
      rw [hmem]
      exact Option.some_ne_none _
    rw [hcode] at hrun
    obtain ⟨hsp, hr⟩ := (Riscv.keepsStack h hacc hem (by decide) himg).stack_eq h hacc hf hrun hj
      hne (hat (nodeOffset_eq hem) hlow hhigh)
    rw [hsp, hr]

/-! ### A store below `R10` -/

/-- `*(u64 *)(r10 - 8) = 0; r0 = 0; exit`. -/
def storeBelowR10 : List RawInsn :=
  [⟨0x7a, 10, -8, 0⟩, ⟨0xb7, 0, 0, 0⟩, ⟨0x95, 0, 0, 0⟩]

/-- `storeBelowR10`, decoded. -/
def storeBelowR10Insns : List Insn :=
  [.storeImm .dw BpfReg.r10 (-8) 0, .alu64 .mov BpfReg.r0 (.imm 0), .exit]

theorem decode_storeBelowR10 : decodeProgram storeBelowR10 = .ok storeBelowR10Insns := by
  decide +kernel

/-- `storeBelowR10`, compiled for AArch64. -/
def storeBelowR10Aarch64 : JitOutput where
  code := ofWords [0xA9BC7BFD, 0xAA1F03FD, 0xA90153F3, 0xA9025BF5, 0xF9001BF9, 0xD2800009,
    0xF97FFF29, 0xD2800007, 0xA94153F3, 0xA9425BF5, 0xF9401BF9, 0xA8C47BFD, 0xAA0703E0, 0xD65F03C0]
  ir := ⟨[⟨⟨0⟩, [.prologue 64, .storeImm .dw ⟨25⟩ (-8) 0, .alu64 .mov ⟨7⟩ (.imm 0), .epilogue 64,
    .ret]⟩], 64⟩
  numBlocks := 1

/-- `storeBelowR10`, compiled for RISC-V. -/
def storeBelowR10Riscv : JitOutput where
  code := ofWords [0xFC010113, 0x02113C23, 0x02813823, 0x03213423, 0x03313023, 0x01413C23,
    0x01513823, 0x01613423, 0x04010413, 0x00000B93, 0xFF7B3C23, 0x00000513, 0x00813B03, 0x01013A83,
    0x01813A03, 0x02013983, 0x02813903, 0x03013403, 0x03813083, 0x04010113, 0x00008067]
  ir := ⟨[⟨⟨0⟩, [.prologue 64, .storeImm .dw ⟨22⟩ (-8) 0, .alu64 .mov ⟨10⟩ (.imm 0), .epilogue 64,
    .ret]⟩], 64⟩
  numBlocks := 1

theorem compile_storeBelowR10 :
    @compile debug storeBelowR10 .aArch64 = .ok storeBelowR10Aarch64 ∧
      @compile debug storeBelowR10 .riscV64 = .ok storeBelowR10Riscv := by
  have h₁ : (@compile debug storeBelowR10 .aArch64).toOption = some storeBelowR10Aarch64 := by
    decide +kernel
  have h₂ : (@compile debug storeBelowR10 .riscV64).toOption = some storeBelowR10Riscv := by
    decide +kernel
  exact ⟨ok_of_toOption h₁, ok_of_toOption h₂⟩

/-- The machine at the entry; all registers but two are 0. -/
def Aarch64.Machine.entry (sp r10 : U64) : Aarch64.Machine :=
  ⟨⟨fun r => if r = 31 then sp else if r = 25 then r10 else 0, ⟨false, false, false, false⟩,
    fun _ => 0⟩, 0⟩

/-- The same for RISC-V. -/
def Riscv.Machine.entry (sp r10 : U64) : Riscv.Machine :=
  ⟨⟨fun r => if r = 2 then sp else if r = 22 then r10 else 0, fun _ => 0, none⟩, 0⟩

/-- A line at offset 0 is entered once. -/
theorem Aarch64.counted_line {env : Full.Env} {code : List U8} {R : Machine → Machine → Prop}
    (hR : ∀ m m', Full.step env code m = .ok m' → R m m') {w : U32} {ws : List U32} {c c' : Cpu}
    (h : Line (w :: ws) c c') (hcode : CodeAt code 0 (w :: ws)) (n : ℕ) :
    Relation.ReflTransGen (Counted R fun m => m.pc = 0) (⟨c, 0⟩, n)
      (⟨c', 4 + 4 * ws.length⟩, n + 1) := by
  cases h with
  | @cons _ i _ _ _ hdecode hstraight hrest =>
    have hstep := Full.step_of_fetch env (hcode 0 w rfl) (Full.decode_of_base hdecode) (c := c) rfl
    have hdisp : (Full.Instr.base i).displacement c = 4 :=
      Instr.displacement_of_isStraight hstraight c
    rw [hdisp] at hstep
    have hzero : (0 : ℤ) + 4 * ((0 : ℕ) : ℤ) = 0 := by norm_num
    rw [hzero] at hstep
    refine @Counted.run_first _ R _ (fun m => m.pc = 0) _ _ _ rfl (hR _ _ hstep)
      (Full.run_line hrest (fun k w' hk => ?_)
        fun m m' hm hstep => ⟨hR m m' hstep, fun h0 => ?_⟩) n
    · have hnext : (0 : ℤ) + 4 + 4 * (k : ℤ) = 0 + 4 * ((k + 1 : ℕ) : ℤ) := by
        push_cast
        ring
      rw [hnext]
      exact hcode (k + 1) w' hk
    · have hpc : m.pc = 0 := h0
      omega

/-- The same for RISC-V. -/
theorem Riscv.counted_line {env : Env} {code : List U8} {R : Machine → Machine → Prop}
    (hR : ∀ m m', step env code m = .ok m' → R m m') {w : U32} {ws : List U32} {c c' : Cpu}
    (h : Line (w :: ws) c c') (hcode : CodeAt code 0 (w :: ws)) (n : ℕ) :
    Relation.ReflTransGen (Counted R fun m => m.pc = 0) (⟨c, 0⟩, n)
      (⟨c', 4 + 4 * ws.length⟩, n + 1) := by
  cases h with
  | @cons _ i _ _ _ hdecode hstraight hrest =>
    have hstep := step_straight env hcode.head hdecode hstraight c
    refine @Counted.run_first _ R _ (fun m => m.pc = 0) _ _ _ rfl (hR _ _ hstep)
      (hrest.run (@CodeAt.drop _ _ [w] _ hcode)
        fun m m' hm _ hstep => ⟨hR m m' hstep, fun h0 => ?_⟩) n
    have hpc : m.pc = 0 := h0
    omega

/-- The run to the store, on AArch64. -/
theorem storeBelowR10_run_aarch64 (r10 : U64) :
    ∃ m, Relation.ReflTransGen (Counted (@Aarch64.Full.CleanStep debug storeBelowR10Aarch64.ir
        storeBelowR10Aarch64.code) fun m => m.pc = 0) (.entry 0x1000 r10, 0) (m, 1) ∧
      m.pc = 20 ∧ m.x 31 = 0xFC0 ∧ m.x 25 = r10 := by
  let words : List U32 := [0xA9BC7BFD, 0xAA1F03FD, 0xA90153F3, 0xA9025BF5, 0xF9001BF9, 0xD2800009,
    0xF97FFF29, 0xD2800007, 0xA94153F3, 0xA9425BF5, 0xF9401BF9, 0xA8C47BFD, 0xAA0703E0, 0xD65F03C0]
  let env : Aarch64.Full.Env := .idle
  have hclean : ∀ m m', Aarch64.Full.step env storeBelowR10Aarch64.code m = .ok m' →
      @Aarch64.Full.CleanStep debug storeBelowR10Aarch64.ir storeBelowR10Aarch64.code m m' := by
    intro m m' hstep
    refine @Aarch64.Full.CleanStep.mk debug _ _ _ _ ⟨env, fun _ _ _ _ => rfl, hstep⟩ ?_
    rintro j node hj - width base off rfl
    have hmem : IrNode.store width base (aarch64Regmap.phys BpfReg.r10) off ∈
        [IrNode.prologue 64, .storeImm .dw ⟨25⟩ (-8) 0, .alu64 .mov ⟨7⟩ (.imm 0), .epilogue 64,
          .ret] := List.mem_of_getElem? hj
    simp only [List.mem_cons, List.not_mem_nil, or_false, reduceCtorEq] at hmem
  obtain ⟨ws, hws, hline⟩ := @Aarch64.prologue_line debug Aarch64.AArch64EmitError 64 (by decide)
  have hwords : @Aarch64.emitPrologue Aarch64.AArch64EmitError debug 64 = .ok (words.take 5) := by
    decide
  cases hws.symm.trans hwords
  have hcode : CodeAt storeBelowR10Aarch64.code 0 (words.take 5) :=
    codeAt_take words 5
  have hrun := Aarch64.counted_line hclean (hline (Aarch64.Machine.entry 0x1000 r10).toCpu) hcode 0
  refine ⟨_, hrun, rfl, ?_, rfl⟩
  have hsp : (0x1000 : U64) + Aarch64.pairOffset (-64) = 0xFC0 := by decide
  exact (Aarch64.afterPrologue_x_sp _).trans hsp

/-- The run to the store, on RISC-V. -/
theorem storeBelowR10_run_riscv (r10 : U64) :
    ∃ m, Relation.ReflTransGen (Counted (@Riscv.CleanStep debug storeBelowR10Riscv.ir
        storeBelowR10Riscv.code) fun m => m.pc = 0) (.entry 0x1000 r10, 0) (m, 1) ∧
      m.pc = 36 ∧ m.x 2 = 0xFC0 ∧ m.x 22 = r10 := by
  let words : List U32 := [0xFC010113, 0x02113C23, 0x02813823, 0x03213423, 0x03313023, 0x01413C23,
    0x01513823, 0x01613423, 0x04010413, 0x00000B93, 0xFF7B3C23, 0x00000513, 0x00813B03, 0x01013A83,
    0x01813A03, 0x02013983, 0x02813903, 0x03013403, 0x03813083, 0x04010113, 0x00008067]
  have hclean : ∀ m m', Riscv.step .idle storeBelowR10Riscv.code m = .ok m' →
      @Riscv.CleanStep debug storeBelowR10Riscv.ir storeBelowR10Riscv.code m m' := by
    intro m m' hstep
    refine @Riscv.CleanStep.mk debug _ _ _ _ ⟨.idle, fun _ _ _ _ => rfl, hstep⟩ ?_
    intro j node hj _
    have hall : ∀ node ∈ storeBelowR10Riscv.ir.code, Riscv.isJaBranch node = false := by
      decide
    exact hall node (List.mem_of_getElem? hj)
  have hline := Riscv.prologue_line (f := 64) ⟨by decide, by decide, by decide⟩ (by decide)
    (Riscv.Machine.entry 0x1000 r10).toCpu
  have hwords : Riscv.prologueWords 64 = words.take 9 := by
    decide
  rw [hwords] at hline
  have hcode : CodeAt storeBelowR10Riscv.code 0 (words.take 9) := codeAt_take words 9
  have hrun := Riscv.counted_line hclean hline hcode 0
  have hsp : (0x1000 : U64) - BitVec.ofNat 64 (64 : U16).toNat = 0xFC0 := by decide
  exact ⟨_, hrun, rfl, hsp, rfl⟩

/-- `stackAccess_fits_iff` at the program `storeBelowR10`, with suitable addresses in the register
of `R10`. -/
theorem stackAccess_fits_storeBelowR10 :
    (∃ m, Relation.ReflTransGen (Counted (@Aarch64.Full.CleanStep debug storeBelowR10Aarch64.ir
        storeBelowR10Aarch64.code) fun m => m.pc = 0) (.entry 0x1000 0x1000, 0) (m, 1) ∧
      AccessFits 64 Aarch64.slotOffsets (m.x 31) (m.x 25) (-8) .dw) ∧
    ∃ m, Relation.ReflTransGen (Counted (@Riscv.CleanStep debug storeBelowR10Riscv.ir
        storeBelowR10Riscv.code) fun m => m.pc = 0) (.entry 0x1000 0xFC8, 0) (m, 1) ∧
      AccessFits 64 (Riscv.slotOffsets 64) (m.x 2) (m.x 22) (-8) .dw := by
  obtain ⟨m₁, hrun₁, hpc₁, -, -⟩ := storeBelowR10_run_aarch64 0x1000
  obtain ⟨m₂, hrun₂, hpc₂, -, -⟩ := storeBelowR10_run_riscv 0xFC8
  refine ⟨⟨m₁, hrun₁, ?_⟩, m₂, hrun₂, ?_⟩
  · refine ((@stackAccess_fits_iff _ debug _ decode_storeBelowR10).1 _ compile_storeBelowR10.1 _ _ _
      rfl hrun₁ (-8) .dw ⟨1, _, rfl, rfl, ?_, ?_⟩).2 (by decide)
    · rw [hpc₁]
      decide +kernel
    · rw [hpc₁]
      decide +kernel
  · refine ((@stackAccess_fits_iff _ debug _ decode_storeBelowR10).2 _ compile_storeBelowR10.2 _ _ _
      rfl hrun₂ (-8) .dw ⟨1, _, rfl, rfl, ?_, ?_⟩).2 (by decide)
    · rw [hpc₂]
      decide +kernel
    · rw [hpc₂]
      decide +kernel

/-- **A store outside the frame**: nothing sets up the register of `R10`, so the caller's value,
here 0, is what the program stores below. -/
theorem storeBelowR10_misses_frame :
    (∃ insns, decodeProgram storeBelowR10 = .ok insns ∧ verifyProgram insns = .ok 1) ∧
    (@compile debug storeBelowR10 .aArch64 = .ok storeBelowR10Aarch64 ∧
      ∃ m, Relation.ReflTransGen (Counted (@Aarch64.Full.CleanStep debug storeBelowR10Aarch64.ir
          storeBelowR10Aarch64.code) fun m => m.pc = 0) (.entry 0x1000 0, 0) (m, 1) ∧
        AtStackAccess aarch64Regmap (nodeOffset (@Aarch64.emitNode debug)
          storeBelowR10Aarch64.ir.code) storeBelowR10Aarch64.ir m.pc (-8) .dw ∧
        ¬ AccessFits 64 Aarch64.slotOffsets (m.x 31) (m.x 25) (-8) .dw) ∧
    @compile debug storeBelowR10 .riscV64 = .ok storeBelowR10Riscv ∧
      ∃ m, Relation.ReflTransGen (Counted (@Riscv.CleanStep debug storeBelowR10Riscv.ir
          storeBelowR10Riscv.code) fun m => m.pc = 0) (.entry 0x1000 0, 0) (m, 1) ∧
        AtStackAccess riscv64Regmap (nodeOffset (@Riscv.emitNode debug)
          storeBelowR10Riscv.ir.code) storeBelowR10Riscv.ir m.pc (-8) .dw ∧
        ¬ AccessFits 64 (Riscv.slotOffsets 64) (m.x 2) (m.x 22) (-8) .dw := by
  refine ⟨⟨_, decode_storeBelowR10, by decide +kernel⟩, ⟨compile_storeBelowR10.1, ?_⟩,
    compile_storeBelowR10.2, ?_⟩
  · obtain ⟨m, hrun, hpc, hsp, hr⟩ := storeBelowR10_run_aarch64 0
    refine ⟨m, hrun, ⟨1, _, rfl, rfl, ?_, ?_⟩, ?_⟩
    · rw [hpc]
      decide +kernel
    · rw [hpc]
      decide +kernel
    · rw [hsp, hr]
      decide
  · obtain ⟨m, hrun, hpc, hsp, hr⟩ := storeBelowR10_run_riscv 0
    refine ⟨m, hrun, ⟨1, _, rfl, rfl, ?_, ?_⟩, ?_⟩
    · rw [hpc]
      decide +kernel
    · rw [hpc]
      decide +kernel
    · rw [hsp, hr]
      decide

end NVMirror
