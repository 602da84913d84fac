import NVMirror.JitEngine.Branches
import NVMirror.JitEngine.Buffer
import NVMirror.JitEngine.ByteOrder
import NVMirror.JitEngine.Capacity
import NVMirror.JitEngine.MemoryNodes
import NVMirror.JitEngine.Riscv
import NVMirror.JitRegalloc.Returns
import NVMirror.JitRiscv.Immediates

/-!
# RISC-V code beside the interpreter

Compiled programs with loads, stores and byte order conversions, on the RISC-V machine: its memory
holds the stack of the interpreter at the address of the stack buffer.

* `Exact`: the states in which the words of an instruction do what the interpreter does.
* `InBody`: what holds between prologue and epilogue.  `InBody.write`, `InBody.store`: a result in a
  register and a store to the buffer keep it.
* `realizes`: the code of a compiled program `Realizes` the interpreter.
* `compile_riscv_exact`: the result, the stack, the registers a function gives back but for `s7`,
  and the rest of memory.
* `compile_riscv_returns`: the code returns only where the interpreter exits.
-/

namespace NVMirror

open Rust Leaders Bytes

namespace Riscv

/-! ### Exact instructions -/

/-- The constant of an operand goes through the scratch register unchanged. -/
def LoadsSource : Source → Prop
  | .imm v => loaded 23 v = v
  | .reg _ => True

/-- **The words of the instruction do what the interpreter does**, in this state: constants are left
as they are, there is no division by zero, the result of a word instruction has no sign, an access
has an offset of 12 bits and lies inside the stack buffer, whole registers compare as their lower
halves do, and a conversion changes nothing. -/
def Exact (stackPtr : U64) (s : InterpreterState) : Insn → Prop
  | .ja _ | .exit => True
  | .alu64 op _ src =>
    (holdsImm op = true ∨ LoadsSource src) ∧ (op = .div → resolveSource s.regs src ≠ 0)
  | .alu32 op dst src =>
    let a := low (s.regs dst)
    let b := low (resolveSource s.regs src)
    (op = .neg ∨ LoadsSource src) ∧ (op = .div → b ≠ 0) ∧
      (hasWord op = true → (aluResult op a b).msb = false)
  | .loadImm64 dst imm => loaded (xreg dst) imm = imm
  | .load width _ src off => OffsetFits off ∧ InBuffer stackPtr (s.regs src) off width
  | .storeReg width dst _ off => OffsetFits off ∧ InBuffer stackPtr (s.regs dst) off width
  | .storeImm width dst off imm =>
    loaded 23 (imm.signExtend 64) = imm.signExtend 64 ∧ OffsetFits off ∧
      InBuffer stackPtr (s.regs dst) off width
  | .jmpCond _ _ src _ => LoadsSource src
  | .jmpCond32 op dst src _ =>
    let a := s.regs dst
    let b := resolveSource s.regs src
    op ≠ .ja ∧ LoadsSource src ∧
      op.holds a b = evalJmp op ((low a).setWidth 64) ((low b).setWidth 64)
  | .endian toBe width dst =>
    Narrow width (s.regs dst) ∧ (toBe = true → Symmetric width (s.regs dst))
  | .call _ | .tailCall | .atomic .. => False

/-- A result does not depend on the register that `Mov` overwrites. -/
theorem aluResult_congr {w : ℕ} {op : AluOp} {a b : BitVec w} (h : op ≠ .mov → a = b)
    (c : BitVec w) : aluResult op a c = aluResult op b c := by
  by_cases hop : op = .mov
  · subst hop
    rfl
  · rw [h hop]

theorem readsOnly_exact (stackPtr : U64) : ReadsOnly (Exact stackPtr) := by
  intro I s t insn hagree hreads hexact
  cases insn with
  | ja | exit => trivial
  | alu64 op dst src =>
    have hsrc := hagree.resolveSource (Set.union_subset_iff.1 hreads).1
    dsimp only [Exact] at hexact ⊢
    rwa [hsrc] at hexact
  | alu32 op dst src =>
    have hsrc := hagree.resolveSource (Set.union_subset_iff.1 hreads).1
    have hdst : op ≠ .mov → low (s.regs dst) = low (t.regs dst) := fun hop => by
      rw [hagree.regs dst (hreads (Or.inr (by simp [hop])))]
    dsimp only [Exact] at hexact ⊢
    rwa [hsrc, aluResult_congr hdst] at hexact
  | loadImm64 dst imm => exact hexact
  | load width dst src off =>
    have hsrc := hagree.regs src (hreads rfl)
    exact ⟨hexact.1, by rw [← hsrc]; exact hexact.2⟩
  | storeReg width dst src off =>
    have hdst := hagree.regs dst (hreads (Or.inl rfl))
    exact ⟨hexact.1, by rw [← hdst]; exact hexact.2⟩
  | storeImm width dst off imm =>
    have hdst := hagree.regs dst (hreads rfl)
    exact ⟨hexact.1, hexact.2.1, by rw [← hdst]; exact hexact.2.2⟩
  | jmpCond op dst src off => exact hexact
  | jmpCond32 op dst src off =>
    have hdst := hagree.regs dst (hreads (Or.inl rfl))
    have hsrc := hagree.resolveSource (Set.insert_subset_iff.1 hreads).2
    dsimp only [Exact] at hexact ⊢
    rwa [hdst, hsrc] at hexact
  | endian toBe width dst =>
    have hdst := hagree.regs dst (hreads rfl)
    dsimp only [Exact] at hexact ⊢
    rwa [hdst] at hexact
  | call | tailCall | atomic => exact hexact.elim

/-- Exact instructions do not overflow. -/
theorem Exact.noOverflow {stackPtr : U64} {s : InterpreterState} {insn : Insn}
    (hexact : Exact stackPtr s insn) : @Insn.NoOverflow release stackPtr s.regs insn := by
  cases insn with
  | alu64 | alu32 => exact fun _ hchecks => absurd hchecks Bool.false_ne_true
  | load | storeReg => exact hexact.2.accessInRange
  | storeImm => exact hexact.2.2.accessInRange
  | _ => trivial

variable {ir : IrProgram} {W : IrNode → List U32} {ws : List U32} {j : ℕ} {node : IrNode}
  {limit : ℕ} {c c' : Cpu}

/-! ### Where the machine stays -/

section

variable {env : Env} {code : List U8} {m : Machine}

/-- Where the code returns, no step is made here. -/
theorem step_of_atRet (h : AtRet code m) : step env code m = .ok m := by
  obtain ⟨w, hfetch, hdecode⟩ := Option.bind_eq_some_iff.1 h
  rw [step_of_fetch env hfetch hdecode rfl]
  show (.ok { m with pc := m.pc + 0 } : Rust Empty Machine) = .ok m
  rw [add_zero]

/-- Behind the code no step is made. -/
theorem step_of_fetch_none (h : fetchU32 code m.pc = none) : step env code m = .ok m := by
  unfold step
  rw [h]
  rfl

end

/-! ### The words of one node -/

/-- A node that is no branch. -/
theorem reaches_node [Profile] (hem : Emission emitNode ir.code W branchOf limit) (env : Env)
    (himg : Image W branchOf patch ir ws) (hj : ir.code[j]? = some node)
    (hbranch : branchOf node = none) (hline : Line (W node) c c') :
    Reaches (step env (ofWords ws)) 0 maxExpansionRatio (atNode Machine.mk W ir j c)
      (atNode Machine.mk W ir (j + 1) c') := by
  have hcode := codeAt_node himg hj (List.append_nil (W node)).symm (Or.inl hbranch)
  refine Reaches.of_steps (Nat.zero_le _)
    (hem.length_le appendsAtMost_emitNode (List.mem_of_getElem? hj)) ?_
  rw [atNode, atNode, hline.steps env hcode, wordPos_succ hj, Nat.cast_add, mul_add]

/-- A branch, where the machine does not return. -/
theorem reaches_branch [Profile] (hem : Emission emitNode ir.code W branchOf limit) (env : Env)
    (himg : Image W branchOf patch ir ws) (hj : ir.code[j]? = some node) {t : BasicBlockId}
    {k : RelocKind} (hbranch : branchOf node = some (t, k)) {pre : List U32} {w : U32}
    (hW : W node = pre ++ [w]) (hline : Line pre c c') {taken : Bool}
    (hpatch : ∀ (d : ℤ) (f : U32 → U32), patch k (4 * d) = some f → ∃ i, decode (f w) = some i ∧
      i ≠ .jalr 0 1 0 ∧ i.traps env c' = false ∧ (∀ pc, i.exec env pc c' = c') ∧
        i.displacement c' = if taken then 4 * d else 4) {ip : ℕ}
    (hentry : ir.entry t = some ip) :
    ¬ AtRet (ofWords ws) (atNode Machine.mk W ir j c) ∧
      Reaches (step env (ofWords ws)) 1 maxExpansionRatio (atNode Machine.mk W ir j c)
        (atNode Machine.mk W ir (if taken then ip else j + 1) c') := by
  obtain ⟨ip', f, hentry', hf, hfetch⟩ := himg.fetch_branch hj hbranch hW
  rw [hentry] at hentry'
  cases hentry'
  obtain ⟨i, hdecode, hi, htraps, hexec, hdisp⟩ := hpatch _ f hf
  have hcode := codeAt_node himg hj hW (Or.inr (List.cons_ne_nil w []))
  -- the first word: that of the branch, or one of those before
  have hno : ¬ AtRet (ofWords ws) (atNode Machine.mk W ir j c) := by
    cases hline with
    | nil =>
      rw [List.length_nil, Nat.cast_zero, mul_zero, add_zero] at hfetch
      exact not_atRet_of_fetch hfetch hdecode hi c
    | cons hdecode' hstraight hrest =>
      refine not_atRet_of_fetch hcode.head hdecode' ?_ c
      rintro rfl
      cases hstraight
  have hlast : step env (ofWords ws)
      ⟨c', 4 * (wordPos W ir.code j : ℤ) + 4 * (pre.length : ℤ)⟩ =
      .ok ⟨c', 4 * (wordPos W ir.code j : ℤ) + 4 * (pre.length : ℤ) +
        if taken then 4 * ((wordPos W ir.code ip : ℤ) - (wordPos W ir.code j + pre.length : ℕ))
        else 4⟩ := by
    rw [step_of_fetch env hfetch hdecode htraps, ← hdisp, hexec]
  have hsucc := wordPos_succ (W := W) hj
  rw [hW, List.length_append, List.length_singleton] at hsucc
  have hle := hem.length_le appendsAtMost_emitNode (List.mem_of_getElem? hj)
  rw [hW, List.length_append, List.length_singleton] at hle
  refine ⟨hno, Reaches.of_steps (Nat.le_add_left 1 _) hle
    (steps_succ_eq_ok.2 ⟨_, hline.steps env hcode, hlast.trans ?_⟩)⟩
  rw [atNode]
  congr 2
  cases taken with
  | true =>
    rw [if_pos rfl, if_pos rfl]
    push_cast
    ring
  | false =>
    rw [if_neg Bool.false_ne_true, if_neg Bool.false_ne_true, hsucc]
    push_cast
    ring

/-- The word of a load whose offset fits. -/
theorem line_load (width : MemWidth) {off : I16} (hfits : OffsetFits off) (d : Reg) {n : Reg}
    (hn : n ≠ 0) (c : Cpu) : Line (emitLoadNode width (physOf d) (physOf n) off) c
      (c.set d ((loadLe (8 * width.byteLen) width.byteLen c.mem
        (c.x n + off.signExtend 64)).setWidth 64)) := by
  have hword : ∀ {w : U32} {size : BitVec 2} {unsigned : Bool},
      decode w = some (.load size unsigned d n ((off.signExtend 32).setWidth 12)) →
      width.byteLen = 2 ^ size.toNat → (unsigned = true ∨ width = .dw) →
      Line [w] c (c.set d ((loadLe (8 * width.byteLen) width.byteLen c.mem
        (c.x n + off.signExtend 64)).setWidth 64)) := by
    intro w size unsigned hdecode hwidth hunsigned
    have hline := Line.word hdecode rfl c
    dsimp only [Instr.effect] at hline
    rw [(field_eq_offset_iff off).2 hfits, c.get_of_ne hn, ← hwidth] at hline
    rcases hunsigned with rfl | rfl
    · exact hline
    · have height : ∀ v : BitVec (8 * MemWidth.dw.byteLen), v.signExtend 64 = v.setWidth 64 := by
        intro v
        exact (BitVec.signExtend_eq v).trans (BitVec.setWidth_eq v).symm
      rw [height, ite_self] at hline
      exact hline
  cases width with
  | b => exact hword (decode_load 4 (by decide) d n _) rfl (Or.inl rfl)
  | h => exact hword (decode_load 5 (by decide) d n _) rfl (Or.inl rfl)
  | w => exact hword (decode_load 6 (by decide) d n _) rfl (Or.inl rfl)
  | dw => exact hword (decode_load 3 (by decide) d n _) rfl (Or.inr rfl)

/-- The word of a store whose offset fits. -/
theorem line_store (width : MemWidth) {off : I16} (hfits : OffsetFits off) {n r : Reg}
    (hn : n ≠ 0) (hr : r ≠ 0) (c : Cpu) : Line (emitStoreNode width (physOf n) (physOf r) off) c
      { c with mem := storeLe width.byteLen c.mem (c.x n + off.signExtend 64) (c.x r) } := by
  have hword : ∀ {w : U32} {size : BitVec 2},
      decode w = some (.store size r n ((off.signExtend 32).setWidth 12)) →
      width.byteLen = 2 ^ size.toNat →
      Line [w] c
        { c with mem := storeLe width.byteLen c.mem (c.x n + off.signExtend 64) (c.x r) } := by
    intro w size hdecode hwidth
    have hline := Line.word hdecode rfl c
    dsimp only [Instr.effect] at hline
    rw [(field_eq_offset_iff off).2 hfits, c.get_of_ne hn, c.get_of_ne hr, ← hwidth] at hline
    exact hline
  cases width with
  | b => exact hword (decode_store 0 rfl r n _) rfl
  | h => exact hword (decode_store 1 rfl r n _) rfl
  | w => exact hword (decode_store 2 rfl r n _) rfl
  | dw => exact hword (decode_store 3 rfl r n _) rfl

/-! ### Between prologue and epilogue -/

/-- Registers that hold their first values between prologue and epilogue, besides the stack
pointer. -/
def heldRegs (f : U16) : List Reg :=
  if 0 < f then [9, 24, 25, 26, 27] else [1, 8, 9, 18, 19, 20, 21, 22, 24, 25, 26, 27]

/-- **Between prologue and epilogue** the machine holds the registers and the stack of the program,
and the frame, if there is one, what the epilogue loads. -/
structure InBody (f : U16) (stackPtr : U64) (c₀ : Cpu) (regs : BpfReg → U64)
    (stack : Fin stackSize → U8) (c : Cpu) : Prop where
  regs : ∀ r, c.x (xreg r) = regs r
  held : ∀ r ∈ heldRegs f, c.x r = c₀.x r
  sp : c.x 2 = frameSp f c₀
  saved : 0 < f → Saved f c₀ c
  stack : StackIn stackPtr stack (frameSp f c₀) f.toNat c₀.mem c.mem

/-- The frame lies outside of the stack buffer. -/
def FrameApart (f : U16) (stackPtr : U64) (c₀ : Cpu) : Prop :=
  Apart stackPtr stackSize (frameSp f c₀) f.toNat

namespace InBody

variable {f : U16} {stackPtr : U64} {c₀ : Cpu} {regs : BpfReg → U64} {stack : Fin stackSize → U8}

/-- The scratch register does not count. -/
theorem same (h : InBody f stackPtr c₀ regs stack c) (hsame : SameOutside {23} c c') :
    InBody f stackPtr c₀ regs stack c' where
  regs r := (hsame.x _ (xreg_ne_scratch r)).trans (h.regs r)
  held r hr := by
    have hne : r ∉ ({23} : Set Reg) := by
      rintro rfl
      unfold heldRegs at hr
      split_ifs at hr <;> revert hr <;> decide
    rw [hsame.x r hne, h.held r hr]
  sp := (hsame.x 2 (by decide)).trans h.sp
  saved hf slot hslot := by
    rw [Cpu.load64, hsame.mem, hsame.x 2 (by decide)]
    exact h.saved hf slot hslot
  stack := by
    rw [hsame.mem]
    exact h.stack

/-- **A result in a register.** -/
theorem write (h : InBody f stackPtr c₀ regs stack c) {d : BpfReg} {v : U64}
    (hsame : SameOutside ({xreg d} ∪ {23}) c c') (hv : c'.x (xreg d) = v)
    (hd : ¬ 0 < f → d.index < 6) :
    InBody f stackPtr c₀ (Function.update regs d v) stack c' := by
  have hnot : ∀ {r : Reg}, r ≠ xreg d → r ≠ 23 → r ∉ ({xreg d} ∪ {23} : Set Reg) := by
    rintro r hd h23 (hr | hr)
    · exact hd hr
    · exact h23 hr
  have h2 : (2 : Reg) ∉ ({xreg d} ∪ {23} : Set Reg) := by
    have hall : ∀ d : BpfReg, (2 : Reg) ≠ xreg d := by decide
    exact hnot (hall d) (by decide)
  refine ⟨fun r => ?_, fun r hr => ?_, (hsame.x 2 h2).trans h.sp, fun hf slot hslot => ?_, ?_⟩
  · by_cases hrd : r = d
    · subst hrd
      rw [hv, Function.update_self]
    · have hinj : Function.Injective xreg := by decide
      rw [Function.update_of_ne hrd, hsame.x _ (hnot (hinj.ne hrd) (xreg_ne_scratch r)), h.regs r]
  · have hne : r ≠ xreg d ∧ r ≠ 23 := by
      unfold heldRegs at hr
      split_ifs at hr with hf
      · have hall : ∀ r ∈ ([9, 24, 25, 26, 27] : List Reg), ∀ d, r ≠ xreg d ∧ r ≠ 23 := by
          decide
        exact hall r hr d
      · have hall : ∀ r ∈ ([1, 8, 9, 18, 19, 20, 21, 22, 24, 25, 26, 27] : List Reg), ∀ d,
            d.index < 6 → r ≠ xreg d ∧ r ≠ 23 := by
          decide
        exact hall r hr d (hd hf)
    rw [hsame.x r (hnot hne.1 hne.2), h.held r hr]
  · rw [Cpu.load64, hsame.mem, hsame.x 2 h2]
    exact h.saved hf slot hslot
  · rw [hsame.mem]
    exact h.stack

/-- **A store to the buffer.** -/
theorem store (h : InBody f stackPtr c₀ regs stack c) (hframe : FrameSize f)
    (hapart : FrameApart f stackPtr c₀) {base : U64} {off : I16} {width : MemWidth}
    (hin : InBuffer stackPtr base off width) (val : U64) :
    InBody f stackPtr c₀ regs (stackWritten stack (bufferIndex stackPtr base off) width val)
      { c with mem := storeLe width.byteLen c.mem (base + off.signExtend 64) val } where
  regs := h.regs
  held := h.held
  sp := h.sp
  saved hf slot hslot := by
    have hge := hframe.ge fun hzero => by
      rw [hzero] at hf
      exact absurd hf (by decide)
    have hlt := f.isLt
    have hbounds : 8 ≤ slot.1 ∧ slot.1 ≤ 64 := by
      have hall : ∀ slot ∈ frameSlots, 8 ≤ slot.1 ∧ slot.1 ≤ 64 := by decide
      exact hall slot hslot
    rw [← h.saved hf slot hslot, Cpu.load64, Cpu.load64, h.sp]
    exact StackIn.loadLe_store hapart hin val (by omega) (by omega)
  stack := h.stack.store hin val

end InBody

/-! ### Instructions -/

section

variable [Profile]

/-- Arithmetic on 64 bits, with either kind of operand. -/
theorem writes_alu64_source (op : AluOp) (d : BpfReg) {src : Source}
    (h : holdsImm op = true ∨ LoadsSource src) :
    ∃ ns, emitAlu64Node (ε := RiscVEmitError) op (riscv64Regmap.phys d)
        (riscv64Regmap.translateSource src) = .ok ns ∧
      ∀ c : Cpu, Writes ns ({xreg d} ∪ {23}) c (xreg d)
        (rvResult op (c.x (xreg d)) (resolveSource (fun r => c.x (xreg r)) src)) := by
  rw [phys_eq]
  cases src with
  | imm v => exact writes_alu64_imm op (xreg_ne_zero d) (xreg_ne_scratch d) h
  | reg r =>
    obtain ⟨ns, hns, hwrites⟩ :=
      writes_alu64 (ε := RiscVEmitError) op (xreg_ne_zero d) (xreg_ne_zero r)
    rw [← phys_eq r] at hns
    exact ⟨ns, hns, fun c => (hwrites c).mono Set.subset_union_left⟩

/-- Arithmetic on 32 bits, with either kind of operand. -/
theorem writes_alu32_source (op : AluOp) (d : BpfReg) {src : Source}
    (h : op = .neg ∨ LoadsSource src) :
    ∃ ns, emitAlu32Node (ε := RiscVEmitError) op (riscv64Regmap.phys d)
        (riscv64Regmap.translateSource src) = .ok ns ∧
      ∀ c : Cpu, Writes ns ({xreg d} ∪ {23}) c (xreg d)
        (rvResult32 op (low (c.x (xreg d)))
          (low (resolveSource (fun r => c.x (xreg r)) src))) := by
  rw [phys_eq]
  cases src with
  | imm v => exact writes_alu32_imm op (xreg_ne_zero d) (xreg_ne_scratch d) h
  | reg r =>
    obtain ⟨ns, hns, hwrites⟩ :=
      writes_alu32 (ε := RiscVEmitError) op (xreg_ne_zero d) (xreg_ne_zero r)
    rw [← phys_eq r] at hns
    exact ⟨ns, hns, fun c => (hwrites c).mono Set.subset_union_left⟩

omit [Profile] in
/-- A word instruction whose result has no sign. -/
theorem rvResult32_eq {op : AluOp} {a b : U32} (hdiv : op = .div → b ≠ 0)
    (hsign : hasWord op = true → (aluResult op a b).msb = false) :
    rvResult32 op a b = (aluResult op a b).setWidth 64 := by
  unfold rvResult32
  split_ifs with hword
  · rw [(rvResult_eq_iff (by decide) op a b).2 hdiv]
    exact (signExtend_eq_iff _).2 (hsign hword)
  · rfl

variable (hem : Emission emitNode ir.code W branchOf limit) {f : U16} {stackPtr : U64}
  {c₀ : Cpu} {s : InterpreterState} (hbody : InBody f stackPtr c₀ s.regs s.stack c)
  {insn : Insn} {pcToBb : List BasicBlockId} {frameSize : U16} {pc : ℕ}
  (hlow : lowerInsn riscv64Regmap pcToBb frameSize pc insn = .ok [node])
  (hj : ir.code[j]? = some node)

omit hbody in
include hem hj in
theorem words_of_emitWords (hbranch : branchOf node = none) {ns : List U32}
    (hns : ∀ e, emitNode e node = .ok (e.emitWords ns)) : W node = ns :=
  words_eq hem hj fun e _ => by rw [hns, Emitter.emitWords_eq, hbranch]

include hem hbody hlow hj

/-- **An instruction with a result** has words that leave it in the register. -/
theorem writes_result (hexact : Exact stackPtr s insn) {d : BpfReg} {v : U64}
    (hres : insn.result stackPtr s = some (d, v)) :
    branchOf node = none ∧ Writes (W node) ({xreg d} ∪ {23}) c (xreg d) v := by
  have hd := xreg_ne_zero d
  have hsub : ({xreg d} : Set Reg) ⊆ {xreg d} ∪ {23} := Set.subset_union_left
  have hregs : (fun r => c.x (xreg r)) = s.regs := funext hbody.regs
  cases insn with
  | alu64 op dst src =>
    cases hres
    cases hlow
    obtain ⟨hsource, hdiv⟩ := hexact
    obtain ⟨ns, hns, hwrites⟩ := writes_alu64_source op d hsource
    have hw := hwrites c
    rw [hregs, hbody.regs d, (rvResult_eq_iff (by decide) op _ _).2 hdiv] at hw
    rw [words_of_emitWords hem hj rfl fun e => by rw [emitNode, hns]; rfl]
    exact ⟨rfl, hw⟩
  | alu32 op dst src =>
    cases hres
    cases hlow
    obtain ⟨hsource, hdiv, hsign⟩ := hexact
    obtain ⟨ns, hns, hwrites⟩ := writes_alu32_source op d hsource
    have hw := hwrites c
    rw [hregs, hbody.regs d, rvResult32_eq hdiv hsign] at hw
    rw [words_of_emitWords hem hj rfl fun e => by rw [emitNode, hns]; rfl]
    exact ⟨rfl, hw⟩
  | loadImm64 dst imm =>
    cases hres
    cases hlow
    obtain ⟨ns, hns, hwrites⟩ := writes_loadImm64 (ε := RiscVEmitError) hd v
    have hns' : emitLoadImm64 (ε := RiscVEmitError) (riscv64Regmap.phys d).num v = .ok ns := by
      rw [phys_eq]
      exact hns
    have hw := hwrites c
    rw [show loaded (xreg d) v = v from hexact] at hw
    rw [words_of_emitWords hem hj rfl fun e => by rw [emitNode, hns']; rfl]
    exact ⟨rfl, hw⟩
  | load width dst src off =>
    cases hres
    cases hlow
    obtain ⟨hfits, hin⟩ := hexact
    have hline := line_load width hfits (xreg d) (xreg_ne_zero src) c
    rw [hbody.regs src, loadLe_eq_stackValue hbody.stack.buffer hin, ← phys_eq, ← phys_eq] at hline
    rw [words_of_emitWords hem hj rfl fun e => rfl]
    exact ⟨rfl, _, hline, c.set_x_self _ hd, (SameOutside.set c _ _).mono hsub⟩
  | endian toBe width dst =>
    cases hres
    cases hlow
    have hconv : Converts toBe width c (xreg d) := by
      rw [Converts, hbody.regs d]
      exact hexact
    have hw := (endianNode_iff toBe width hd c).2 hconv
    rw [← phys_eq, hbody.regs d] at hw
    rw [words_of_emitWords hem hj rfl fun e => rfl]
    exact ⟨rfl, hw.mono hsub⟩
  | _ => cases hres

/-- **A store** has words that store to the buffer, and may use the scratch register. -/
theorem line_stored (hexact : Exact stackPtr s insn) {width : MemWidth} {base val : U64} {off : I16}
    (hstored : insn.stored s = some (width, base, off, val)) :
    branchOf node = none ∧ InBuffer stackPtr base off width ∧ ∃ c₁, SameOutside {23} c c₁ ∧
      Line (W node) c
        { c₁ with mem := storeLe width.byteLen c₁.mem (base + off.signExtend 64) val } := by
  cases insn with
  | storeReg width dst src off =>
    cases hstored
    cases hlow
    obtain ⟨hfits, hin⟩ := hexact
    have hline := line_store width hfits (xreg_ne_zero dst) (xreg_ne_zero src) c
    rw [hbody.regs dst, hbody.regs src, ← phys_eq, ← phys_eq] at hline
    rw [words_of_emitWords hem hj rfl fun e => rfl]
    exact ⟨rfl, hin, c, SameOutside.refl _ c, hline⟩
  | storeImm width dst off imm =>
    cases hstored
    cases hlow
    obtain ⟨hloads, hfits, hin⟩ := hexact
    obtain ⟨ns, hns, hwrites⟩ := writes_loadImm64 (ε := RiscVEmitError)
      (by decide : (23 : Reg) ≠ 0) (imm.signExtend 64)
    have hw := hwrites c
    rw [hloads, Set.union_self] at hw
    obtain ⟨c₁, hload, hv, hsame⟩ := hw
    have hline := line_store width hfits (xreg_ne_zero dst) (by decide : (23 : Reg) ≠ 0) c₁
    rw [(hbody.same hsame).regs dst, hv, ← phys_eq] at hline
    have hns' : emitLoadImm64 (ε := RiscVEmitError) tmp (imm.signExtend 64) = .ok ns := hns
    rw [words_of_emitWords hem hj rfl fun e => by rw [emitNode, hns']; rfl]
    exact ⟨rfl, hin, c₁, hsame, hload.append hline⟩
  | _ => cases hstored

end

/-! ### Jumps -/

section

variable [Profile] (hem : Emission emitNode ir.code W branchOf limit)
  (himg : Image W branchOf patch ir ws) (env : Env) {f : U16} {stackPtr : U64} {c₀ : Cpu}
  {s : InterpreterState} (hbody : InBody f stackPtr c₀ s.regs s.stack c)

include hem himg hbody

/-- A comparison and a branch. -/
theorem reaches_compare {op : JmpOp} (hop : op ≠ .ja) {l : BpfReg} {src : Source}
    (hsrc : LoadsSource src) {is32bit : Bool} {t : BasicBlockId}
    (hj : ir.code[j]? = some
      (.branch ⟨op, riscv64Regmap.phys l, riscv64Regmap.translateSource src, is32bit⟩ t))
    {ip : ℕ} (hentry : ir.entry t = some ip) :
    ¬ AtRet (ofWords ws) (atNode Machine.mk W ir j c) ∧ ∃ c', SameOutside {23} c c' ∧
      Reaches (step env (ofWords ws)) 1 maxExpansionRatio (atNode Machine.mk W ir j c)
        (atNode Machine.mk W ir
          (if op.holds (s.regs l) (resolveSource s.regs src) then ip else j + 1) c') := by
  obtain ⟨operand, hoperand, hval, hloads⟩ : ∃ operand : Reg ⊕ I64,
      riscv64Regmap.translateSource src = operandOf operand ∧
        operandGet c operand = resolveSource s.regs src ∧
          ∀ v, operand = .inr v → loaded 23 v = v := by
    cases src with
    | imm v => exact ⟨.inr v, rfl, rfl, fun v' hv => Sum.inr.inj hv ▸ hsrc⟩
    | reg r =>
      exact ⟨.inl (xreg r), congrArg Operand.reg (phys_eq r),
        (c.get_of_ne (xreg_ne_zero r)).trans (hbody.regs r), fun v hv => by cases hv⟩
  obtain ⟨pre, funct3, cond, s1, s2, c', hemit, hcond, hline, hsame, hholds⟩ :=
    branch_line hop (xreg_ne_scratch l) operand hloads is32bit c
  rw [← hoperand, ← phys_eq] at hemit
  have hW := words_eq hem hj fun e _ => hemit e t
  refine (reaches_branch hem env himg hj rfl hW hline (fun d g hg => ?_) hentry).imp_right
    fun hreach => ⟨c', hsame, hreach⟩
  obtain ⟨imm12, hdecode, hd⟩ := patch_branch hg hcond s1 s2
  refine ⟨_, hdecode, Instr.noConfusion, rfl, fun pc => rfl, ?_⟩
  dsimp only [Instr.displacement]
  rw [hd, hholds, hval, c.get_of_ne (xreg_ne_zero l), hbody.regs l]

/-- **A jump** goes where the interpreter goes. -/
theorem reaches_jump {insn : Insn} {pcToBb : List BasicBlockId} {frameSize : U16} {pc : ℕ}
    (hlow : lowerInsn riscv64Regmap pcToBb frameSize pc insn = .ok [node])
    (hj : ir.code[j]? = some node) (hexact : Exact stackPtr s insn) (hwire : insn.FromWire)
    {off : I16} (hoff : insn.jumpOff = some off) {t : BasicBlockId} (htarget : node.target = some t)
    {ip : ℕ} (hentry : ir.entry t = some ip) :
    ¬ AtRet (ofWords ws) (atNode Machine.mk W ir j c) ∧ ∃ c', SameOutside {23} c c' ∧
      Reaches (step env (ofWords ws)) 1 maxExpansionRatio (atNode Machine.mk W ir j c)
        (atNode Machine.mk W ir (if insn.taken s.regs then ip else j + 1) c') := by
  cases insn with
  | ja off' =>
    obtain ⟨t', -, hlow⟩ := bind_eq_ok.1 hlow
    cases hlow
    cases htarget
    have hW : W (.jump t) = [] ++ [jal 0 0] := words_eq hem hj fun e _ =>
      congrArg Except.ok (e.pushRelocation_emit32 (jal 0 0) t .jal)
    refine (reaches_branch hem env himg hj rfl hW (Line.nil c) (fun d g hg => ?_)
      hentry).imp_right fun hreach => ⟨c, SameOutside.refl _ c, hreach⟩
    obtain ⟨imm20, hdecode, hd⟩ := patch_jal hg
    exact ⟨_, hdecode, Instr.noConfusion, rfl, fun pc => rfl, hd⟩
  | jmpCond op l src off' =>
    obtain ⟨t', -, hlow⟩ := bind_eq_ok.1 hlow
    cases hlow
    cases htarget
    have hjump := reaches_compare hem himg env hbody (hwire.jmpCond_ne_ja _ _ _ _ rfl) hexact hj
      hentry
    show _ ∧ ∃ c', SameOutside {23} c c' ∧ Reaches _ _ _ _ (atNode Machine.mk W ir
      (if evalJmp op (s.regs l) (resolveSource s.regs src) then ip else j + 1) c')
    rw [evalJmp_eq]
    exact hjump
  | jmpCond32 op l src off' =>
    obtain ⟨t', -, hlow⟩ := bind_eq_ok.1 hlow
    cases hlow
    cases htarget
    obtain ⟨hop, hsrc, heval⟩ := hexact
    have hjump := reaches_compare hem himg env hbody hop hsrc hj hentry
    rw [heval] at hjump
    exact hjump
  | _ => cases hoff

end

/-! ### Prologue and epilogue -/

/-- The machine before the first instruction. -/
structure Start (stackPtr : U64) (c₀ : Cpu) (regs : BpfReg → U64) (stack : Fin stackSize → U8)
    (c : Cpu) : Prop where
  eq : c = c₀
  regs : ∀ r, c₀.x (xreg r) = regs r
  stack : BytesAt c₀.mem stackPtr stack

/-- `ra`, `sp`, `s0` to `s6` and `s8` to `s11`. -/
def givenBack : List Reg := [1, 2, 8, 9, 18, 19, 20, 21, 22, 24, 25, 26, 27]

/-- **The machine at the return**: `a0` holds the result, the registers a function gives back hold
their first values, but for `s7`, the buffer holds the stack, and the rest of memory outside of the
frame is as before. -/
structure Returned (f : U16) (stackPtr : U64) (c₀ : Cpu) (regs : BpfReg → U64)
    (stack : Fin stackSize → U8) (c : Cpu) : Prop where
  result : c.x 10 = regs BpfReg.r0
  given : ∀ r ∈ givenBack, c.x r = c₀.x r
  stack : StackIn stackPtr stack (frameSp f c₀) f.toNat c₀.mem c.mem

section

variable {f : U16} {stackPtr : U64} {c₀ : Cpu} {regs : BpfReg → U64} {stack : Fin stackSize → U8}

theorem frameSp_of_zero (hf : ¬ 0 < f) (c : Cpu) : frameSp f c = c.x 2 := by
  have hzero : f = 0 := BitVec.eq_of_toNat_eq (Nat.le_zero.1 (BitVec.not_lt.1 hf))
  rw [frameSp, hzero]
  exact BitVec.sub_zero _

/-- Without a frame. -/
theorem Start.body (h : Start stackPtr c₀ regs stack c) (hf : ¬ 0 < f) :
    InBody f stackPtr c₀ regs stack c := by
  obtain ⟨rfl, hregs, hstack⟩ := h
  exact ⟨hregs, fun _ _ => rfl, (frameSp_of_zero hf c).symm, fun hpos => absurd hpos hf,
    StackIn.start hstack _ _⟩

/-- **A prologue.** -/
theorem Start.afterPrologue (h : Start stackPtr c₀ regs stack c) (hframe : FrameSize f)
    (hf : 0 < f) (hapart : FrameApart f stackPtr c₀) :
    InBody f stackPtr c₀ regs stack (afterPrologue f c) := by
  obtain ⟨rfl, hregs, hstack⟩ := h
  have hx : ∀ r, r ≠ 2 → r ≠ 8 → (Riscv.afterPrologue f c).x r = c.x r := by
    intro r h2 h8
    dsimp only [Riscv.afterPrologue]
    rw [Function.update_of_ne h8, Function.update_of_ne h2]
  refine ⟨fun r => ?_, fun r hr => ?_, ?_, fun _ => saved_afterPrologue hframe hf c, ?_⟩
  · have hall : ∀ r, xreg r ≠ 2 ∧ xreg r ≠ 8 := by decide
    rw [hx _ (hall r).1 (hall r).2, hregs r]
  · rw [heldRegs, if_pos hf] at hr
    have hall : ∀ r ∈ ([9, 24, 25, 26, 27] : List Reg), r ≠ 2 ∧ r ≠ 8 := by decide
    exact hx r (hall r hr).1 (hall r hr).2
  · dsimp only [Riscv.afterPrologue]
    rw [Function.update_of_ne (by decide), Function.update_self]
  · have hge := hframe.ge fun hzero => by
      rw [hzero] at hf
      exact absurd hf (by decide)
    have hlt := f.isLt
    refine (StackIn.start hstack _ _).storeSlots hapart (fun slot hslot => ?_) (by omega)
    obtain ⟨slot', hslot', rfl⟩ := List.mem_map.1 hslot
    have hall : ∀ slot ∈ frameSlots, 8 ≤ slot.1 ∧ slot.1 ≤ 64 := by decide
    have hbounds := hall slot' hslot'
    dsimp only
    omega

/-- At a return without a frame. -/
theorem InBody.returned (h : InBody f stackPtr c₀ regs stack c) (hf : ¬ 0 < f) :
    Returned f stackPtr c₀ regs stack c where
  result := h.regs BpfReg.r0
  given r hr := by
    have hall : ∀ r ∈ givenBack, r = 2 ∨
        r ∈ ([1, 8, 9, 18, 19, 20, 21, 22, 24, 25, 26, 27] : List Reg) := by
      decide
    rcases hall r hr with rfl | hheld
    · rw [h.sp, frameSp_of_zero hf]
    · refine h.held r ?_
      rw [heldRegs, if_neg hf]
      exact hheld
  stack := h.stack

/-- **An epilogue.** -/
theorem InBody.epilogue (h : InBody f stackPtr c₀ regs stack c) (hframe : FrameSize f)
    (hf : 0 < f) :
    ∃ c', Line (epilogueWords f) c c' ∧ Returned f stackPtr c₀ regs stack c' := by
  obtain ⟨c', hline, hsp, hslots, hother, hmem⟩ := epilogue_line hframe hf c
  have hloads : ∀ slot ∈ frameSlots, c'.x slot.2 = c₀.x slot.2 := by
    intro slot hslot
    rw [hslots slot hslot, h.saved hf slot hslot]
  refine ⟨c', hline, ?_, fun r hr => ?_, ?_⟩
  · rw [hother 10 (by decide) (by decide)]
    exact h.regs BpfReg.r0
  · have hall : ∀ r ∈ givenBack, r = 2 ∨ (∃ slot ∈ frameSlots, slot.2 = r) ∨
        r ≠ 2 ∧ (∀ slot ∈ frameSlots, slot.2 ≠ r) ∧
          r ∈ ([9, 24, 25, 26, 27] : List Reg) := by
      decide
    rcases hall r hr with rfl | ⟨slot, hslot, rfl⟩ | ⟨h2, hno, hheld⟩
    · rw [hsp, h.sp, frameSp, BitVec.sub_add_cancel]
    · exact hloads slot hslot
    · rw [hother r h2 hno]
      refine h.held r ?_
      rw [heldRegs, if_pos hf]
      exact hheld
  · rw [hmem]
    exact h.stack

end

/-! ### Programs -/

section

variable [Profile] {insns : List Insn} {flags : List Bool} {pcToBb : List BasicBlockId}
  {nodes : ℕ → List IrNode} (h : Lowering insns riscv64Regmap flags pcToBb nodes ir)
  (hacc : Accepted insns) (hem : Emission emitNode ir.code W branchOf limit)
  (himg : Image W branchOf patch ir ws) (env : Env) {stackPtr : U64} {c₀ : Cpu}

include h hacc hem himg

omit h hacc in
/-- The word of a return. -/
theorem atRet_node (hret : ir.code[j]? = some .ret) (c : Cpu) :
    AtRet (ofWords ws) (atNode Machine.mk W ir j c) := by
  have hcode := codeAt_node himg hret (List.append_nil (W .ret)).symm (Or.inl rfl)
  rw [words_ret hem hret] at hcode
  show (fetchU32 (ofWords ws) (4 * (wordPos W ir.code j : ℤ))).bind decode = _
  rw [hcode.head, Option.bind_some]
  exact decode_jalr 0 1 0

/-- **The code of a program realizes the interpreter.** -/
theorem realizes (hof : FrameOf insns ir.frameSize) (hapart : FrameApart ir.frameSize stackPtr c₀) :
    Realizes Machine.mk (step env (ofWords ws)) maxExpansionRatio (AtRet (ofWords ws)) W ir insns
      nodes stackPtr (Exact stackPtr) (Start stackPtr c₀) (InBody ir.frameSize stackPtr c₀)
      (fun regs stack m => Returned ir.frameSize stackPtr c₀ regs stack m.toCpu) where
  stays _ hret := step_of_atRet hret
  prologue := by
    intro hf hj regs stack c hstart
    have hline := prologue_line h.frameSize hf c
    rw [← prologue_words hem hj] at hline
    exact ⟨_, hstart.afterPrologue h.frameSize hf hapart, reaches_node hem env himg hj rfl hline⟩
  node := by
    intro pc insn node hget hoff hexit hns j hj s s' c hexact hstep hbody
    have hlow := h.lower_eq pc insn hget
    rw [hns] at hlow
    cases hres : insn.result stackPtr s with
    | some dv =>
      obtain ⟨d, v⟩ := dv
      obtain ⟨hbranch, c', hline, hv, hsame⟩ := writes_result hem hbody hlow hj hexact hres
      obtain ⟨hregs, hstack⟩ := stepInsn_write hres hstep
      rw [hregs, hstack]
      exact ⟨c', hbody.write hsame hv (hof.index_lt hacc hget hres),
        reaches_node hem env himg hj hbranch hline⟩
    | none =>
      cases hstored : insn.stored s with
      | some access =>
        obtain ⟨width, base, off, val⟩ := access
        obtain ⟨hbranch, hin, c₁, hsame, hline⟩ := line_stored hem hbody hlow hj hexact hstored
        obtain ⟨hregs, hstack⟩ := stepInsn_store hstored hstep
        rw [hregs, hstack]
        exact ⟨_, (hbody.same hsame).store h.frameSize hapart hin val,
          reaches_node hem env himg hj hbranch hline⟩
      | none =>
        -- what remains are jumps, `Exit`, calls and atomic operations
        cases insn with
        | ja | jmpCond | jmpCond32 => cases hoff
        | exit => exact absurd rfl hexit
        | call | tailCall | atomic => exact hexact.elim
        | alu64 | alu32 | loadImm64 | load | endian => cases hres
        | storeReg | storeImm => cases hstored
  jump := by
    intro pc insn node off t ip hget hoff hns htarget hentry j hj s c hexact hbody
    have hlow := h.lower_eq pc insn hget
    rw [hns] at hlow
    have hwire := hacc.fromWire insn (List.mem_of_getElem? hget)
    obtain ⟨hno, c', hsame, hreach⟩ :=
      reaches_jump hem himg env hbody hlow hj hexact hwire hoff htarget hentry
    exact ⟨hno, c', hbody.same hsame, hreach⟩
  exit := by
    intro pc hget regs stack c hbody
    by_cases hf : 0 < ir.frameSize
    · obtain ⟨hepi, hret⟩ := h.code_exit hacc.ne_nil hf hget
      obtain ⟨c', hline, hreturned⟩ := hbody.epilogue h.frameSize hf
      rw [← epilogue_words hem hepi] at hline
      exact ⟨_, atRet_node hem himg hret c', hreturned,
        (reaches_node hem env himg hepi rfl hline).mono le_rfl
          (Nat.le_mul_of_pos_left _ (by decide))⟩
    · have hret := h.code_exit_zero hacc.ne_nil hf hget
      exact ⟨_, atRet_node hem himg hret c, hbody.returned hf, Reaches.refl _ _⟩
  behind := by
    intro j hnone c
    have hfetch := himg.fetch_end hnone
    refine ⟨fun hret => ?_, step_of_fetch_none hfetch⟩
    unfold AtRet atNode at hret
    rw [hfetch] at hret
    cases hret

end

end Riscv

variable [Profile] {insns : List Insn}

section

variable {raw : List RawInsn} {out : JitOutput} (hdec : decodeProgram raw = .ok insns)
  (hout : compile raw .riscV64 = .ok out) {stackPtr : U64} {regs : BpfReg → U64}
  {stack : Fin stackSize → U8} {c : Riscv.Cpu} (hregs : ∀ r, c.x (Riscv.xreg r) = regs r)
  (hstack : BytesAt c.mem stackPtr stack)
  (hapart : Riscv.FrameApart out.ir.frameSize stackPtr c) (env : Riscv.Env)

include hdec hout hregs hstack hapart

/-- Compiled code realizes the interpreter, on a machine with its registers. -/
theorem compiled_riscv_realizes : ∃ flags pcToBb nodes W,
    Lowering insns riscv64Regmap flags pcToBb nodes out.ir ∧ Accepted insns ∧
      Realizes Riscv.Machine.mk (Riscv.step env out.code) Riscv.maxExpansionRatio
        (Riscv.AtRet out.code) W out.ir insns nodes stackPtr (Riscv.Exact stackPtr)
        (Riscv.Start stackPtr c) (Riscv.InBody out.ir.frameSize stackPtr c)
        (fun regs stack m => Riscv.Returned out.ir.frameSize stackPtr c regs stack m.toCpu) ∧
      if 0 < out.ir.frameSize then Riscv.Start stackPtr c regs stack c
        else Riscv.InBody out.ir.frameSize stackPtr c regs stack c := by
  obtain ⟨hacc, hof, flags, pcToBb, nodes, W, ws, h, hem, hcode, himg⟩ :=
    compile_riscv_image hdec hout
  have hreal := Riscv.realizes h hacc hem himg env hof hapart
  rw [← hcode] at hreal
  have hstart : Riscv.Start stackPtr c regs stack c := ⟨rfl, hregs, hstack⟩
  refine ⟨flags, pcToBb, nodes, W, h, hacc, hreal, ?_⟩
  split_ifs with hf
  · exact hstart
  · exact hstart.body hf

/-- The code of a program whose run is exact. -/
theorem compiled_riscv_reaches {k : ℕ} {s : InterpreterState}
    (hrun : @stepN release stackPtr insns (.start regs stack) k = .ok s) (hexit : Exited insns s)
    (hexact : ExactRun (Riscv.Exact stackPtr) stackPtr insns out.ir.frameSize
      (.start regs stack) k) :
    ∃ n m', n ≤ Riscv.maxExpansionRatio * (k + 2) ∧
      steps (Riscv.step env out.code) ⟨c, 0⟩ n = .ok m' ∧ Riscv.AtRet out.code m' ∧
      Riscv.Returned out.ir.frameSize stackPtr c s.regs s.stack m'.toCpu := by
  obtain ⟨flags, pcToBb, nodes, W, h, hacc, hreal, hstart⟩ :=
    compiled_riscv_realizes hdec hout hregs hstack hapart env
  obtain ⟨m', hatRet, hreturned, n, -, hle, hsteps⟩ :=
    hreal.final h hacc hstart hrun hexact hexit
  exact ⟨n, m', hle, hsteps, hatRet, hreturned⟩

end

/-- **Compiled programs with memory, on RISC-V.**  Let an accepted program be compiled, and let the
interpreter, with wrapping negation, run it to its `Exit` by exact instructions only.  A machine
that starts the code with the same `R1` in `a1`, `R10` in `s6` and stack in memory, outside of the
frame, and with anything in the other registers, comes to its return with the result in `a0`, the
stack of the interpreter in the buffer, the registers a function gives back, but for `s7`, and the
rest of memory outside of the frame as it was.  It executes at most ten instructions for each step
of the interpreter, and twenty more. -/
theorem compile_riscv_exact {raw : List RawInsn} {out : JitOutput}
    (hdec : decodeProgram raw = .ok insns) (hout : compile raw .riscV64 = .ok out) {stackPtr : U64}
    {regs : BpfReg → U64} {stack : Fin stackSize → U8} {k : ℕ} {s : InterpreterState}
    (hrun : @stepN release stackPtr insns (.start regs stack) k = .ok s) (hexit : Exited insns s)
    (hexact : ExactRun (Riscv.Exact stackPtr) stackPtr insns out.ir.frameSize
      (.start regs stack) k)
    {m : Riscv.Machine} (hpc : m.pc = 0) (ha1 : m.x 11 = regs BpfReg.r1)
    (hs6 : m.x 22 = regs BpfReg.r10) (hstack : BytesAt m.mem stackPtr stack)
    (hapart : Riscv.FrameApart out.ir.frameSize stackPtr m.toCpu) (env : Riscv.Env) :
    ∃ n m', n ≤ Riscv.maxExpansionRatio * (k + 2) ∧
      steps (Riscv.step env out.code) m n = .ok m' ∧ Riscv.AtRet out.code m' ∧
      Riscv.Returned out.ir.frameSize stackPtr m.toCpu s.regs s.stack m'.toCpu := by
  have hv := (compile_stages hdec hout).1.toVerified
  rcases m with ⟨c, pc⟩
  dsimp only at hpc ha1 hs6 hstack hapart
  subst hpc
  -- the interpreter, started with the registers of the machine
  let regs' : BpfReg → U64 := fun r => c.x (Riscv.xreg r)
  have hstart : InStep insns (.start regs stack) (.start regs' stack) :=
    InStep.start stack ha1.symm hs6.symm
  obtain ⟨s', hrun', hsame, hstack', hexit'⟩ :=
    @InStep.exists_exited _ _ _ _ release hv hstart _ _ hrun hexit
  obtain ⟨n, m', hle, hsteps, hatRet, hreturned⟩ := compiled_riscv_reaches hdec hout
    (fun _ => rfl) hstack hapart env hrun' hexit'
    (hexact.of_inStep (Riscv.readsOnly_exact stackPtr) hv hstart)
  refine ⟨n, m', hle, hsteps, hatRet, ?_⟩
  rw [hstack']
  exact { hreturned with result := hreturned.result.trans hsame.symm }

/-- `r6 = r10; *(u64 *)(r6 - 8) = 5; r0 = *(u64 *)(r10 - 8); exit`. -/
def storeBelow : List RawInsn :=
  [⟨0xbf, 0xa6, 0, 0⟩, ⟨0x7a, 0x06, -8, 5⟩, ⟨0x79, 0xa0, -8, 0⟩, ⟨0x95, 0, 0, 0⟩]

/-- `storeBelow`, decoded. -/
def storeBelowInsns : List Insn :=
  [.alu64 .mov BpfReg.r6 (.reg BpfReg.r10), .storeImm .dw BpfReg.r6 (-8) 5,
    .load .dw BpfReg.r0 BpfReg.r10 (-8), .exit]

omit [Profile] in
theorem decode_storeBelow : decodeProgram storeBelow = .ok storeBelowInsns := by
  decide +kernel

/-- A machine with the end of the buffer at `0x1000` in the register of `R10` and the stack pointer
at `0x8000`. -/
def Riscv.Machine.withBuffer : Riscv.Machine where
  x r := if r = 22 then 0x1200 else if r = 2 then 0x8000 else 0
  mem _ := 0
  reserved := none
  pc := 0

omit [Profile] in
theorem Riscv.frameApart_withBuffer {f : U16} (hle : f.toNat ≤ 512) :
    FrameApart f 0x1000 Machine.withBuffer.toCpu := by
  have hbase : (frameSp f Machine.withBuffer.toCpu).toNat = 0x8000 - f.toNat := by
    show ((0x8000 : U64) - BitVec.ofNat 64 f.toNat).toNat = _
    have htop : (0x8000 : U64).toNat = 0x8000 := rfl
    rw [BitVec.toNat_sub, BitVec.toNat_ofNat, htop]
    omega
  have hbuf : (0x1000 : U64).toNat = 0x1000 := rfl
  refine Apart.of_le ?_ ?_
  · unfold stackSize
    omega
  · omega

omit [Profile] in
theorem exactRun_storeBelow (f : U16) :
    ExactRun (Riscv.Exact 0x1000) 0x1000 storeBelowInsns f
      (.start (fun r => Riscv.Machine.withBuffer.x (Riscv.xreg r)) fun _ => 0) 4 := by
  have hfits : Riscv.OffsetFits (-8) := ⟨by decide, by decide⟩
  refine (ExactRun.zero _ _ _ _ _).step rfl rfl ⟨Or.inr trivial, ?_⟩ rfl ?_
    |>.step rfl rfl ⟨?_, hfits, ?_⟩ rfl ?_ |>.step rfl rfl ⟨hfits, ?_⟩ rfl ?_
    |>.step rfl rfl trivial rfl ?_
  all_goals decide +kernel

omit [Profile] in
theorem run_storeBelow : ∃ s, @stepN release 0x1000 storeBelowInsns
      (.start (fun r => Riscv.Machine.withBuffer.x (Riscv.xreg r)) fun _ => 0) 4 = .ok s ∧
    Exited storeBelowInsns s ∧ s.regs BpfReg.r0 = 5 := by
  refine ⟨_, rfl, ⟨rfl, rfl⟩, ?_⟩
  decide +kernel

omit [Profile] in
/-- `compile_riscv_exact` at `storeBelow`: the machine returns 5. -/
theorem compile_riscv_exact_storeBelow :
    ∃ out, @compile debug storeBelow .riscV64 = .ok out ∧ ∃ n m',
      steps (Riscv.step .idle out.code) .withBuffer n = .ok m' ∧
        Riscv.AtRet out.code m' ∧ m'.x 10 = 5 := by
  obtain ⟨out, hout⟩ := exists_ok_of_isOk
    (by decide +kernel : (@compile debug storeBelow .riscV64).isOk = true)
  refine ⟨out, hout, ?_⟩
  have hle := (@compile_riscv_image _ debug _ _ decode_storeBelow hout).2.1.le
  have hapart := Riscv.frameApart_withBuffer hle
  obtain ⟨s, hrun, hexit, hresult⟩ := run_storeBelow
  obtain ⟨n, m', -, hsteps, hatRet, hreturned⟩ := @compile_riscv_exact debug _ _ _ decode_storeBelow
    hout _ _ _ 4 s hrun hexit (exactRun_storeBelow _) .withBuffer rfl rfl rfl (fun _ => rfl) hapart
    .idle
  exact ⟨n, m', hsteps, hatRet, hreturned.result.trans hresult⟩

end NVMirror
