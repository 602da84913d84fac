import NVMirror.JitAarch64.FullRuns
import NVMirror.JitAarch64.Restore
import NVMirror.JitEngine.Aarch64
import NVMirror.JitEngine.Branches
import NVMirror.JitEngine.Buffer
import NVMirror.JitEngine.ByteOrder
import NVMirror.JitEngine.Capacity
import NVMirror.JitEngine.MemoryNodes
import NVMirror.JitRegalloc.Returns

/-!
# AArch64 code beside the interpreter

Compiled programs with loads, stores and byte order conversions, on the full machine: its memory
holds the stack of the interpreter at the address of the stack buffer.

* `Exact`: the states in which the words of an instruction do what the interpreter does.
* `Body`: what holds between prologue and epilogue.  `Body.write`, `Body.store`: a result in a
  register and a store to the buffer keep it.
* `realizes`: the code of a compiled program `Realizes` the interpreter.
* `compile_aarch64_exact`: the result, the stack, the registers a function gives back, and the rest
  of memory.
* `compile_aarch64_returns`: the code returns only where the interpreter exits.
-/

namespace NVMirror

open Rust Leaders Bytes

namespace Aarch64

/-! ### Exact instructions -/

/-- **The words of the instruction do what the interpreter does**, in this state: an access has an
offset that its instruction holds and lies inside the stack buffer, a bit test has the result of
`≠`, the halves of a signed comparison have one sign, a conversion is one the emitter has words for
or changes nothing. -/
def Exact (stackPtr : U64) (s : InterpreterState) : Insn → Prop
  | .alu64 .. | .alu32 .. | .loadImm64 .. | .ja _ | .exit => True
  | .load width _ src off => OffsetFits width off ∧ InBuffer stackPtr (s.regs src) off width
  | .storeReg width dst _ off | .storeImm width dst off _ =>
    OffsetFits width off ∧ InBuffer stackPtr (s.regs dst) off width
  | .jmpCond op dst src _ => op = .jset → BitTestIsNe (s.regs dst) (resolveSource s.regs src)
  | .jmpCond32 op dst src _ =>
    let a := low (s.regs dst)
    let b := low (resolveSource s.regs src)
    (op.isSigned = true → a.msb = b.msb) ∧ (op = .jset → BitTestIsNe a b)
  | .endian toBe width dst => if toBe then width ≠ .bits16 else Narrow width (s.regs dst)
  | .call _ | .tailCall | .atomic .. => False

theorem readsOnly_exact (stackPtr : U64) : ReadsOnly (Exact stackPtr) := by
  intro I s t insn hagree hreads hexact
  cases insn with
  | alu64 | alu32 | loadImm64 | ja | exit => trivial
  | load width dst src off =>
    have hsrc := hagree.regs src (hreads rfl)
    exact ⟨hexact.1, by rw [← hsrc]; exact hexact.2⟩
  | storeReg width dst src off =>
    have hdst := hagree.regs dst (hreads (Or.inl rfl))
    exact ⟨hexact.1, by rw [← hdst]; exact hexact.2⟩
  | storeImm width dst off imm =>
    have hdst := hagree.regs dst (hreads rfl)
    exact ⟨hexact.1, by rw [← hdst]; exact hexact.2⟩
  | jmpCond op dst src off | jmpCond32 op dst src off =>
    have hdst := hagree.regs dst (hreads (Or.inl rfl))
    have hsrc := hagree.resolveSource (Set.insert_subset_iff.1 hreads).2
    dsimp only [Exact] at hexact ⊢
    rwa [hdst, hsrc] at hexact
  | endian toBe width dst =>
    have hdst := hagree.regs dst (hreads rfl)
    dsimp only [Exact] at hexact ⊢
    rwa [hdst] at hexact
  | call | tailCall | atomic => exact hexact.elim

/-- Exact instructions do not overflow. -/
theorem Exact.noOverflow {stackPtr : U64} {s : InterpreterState} {insn : Insn}
    (hexact : Exact stackPtr s insn) : @Insn.NoOverflow release stackPtr s.regs insn := by
  cases insn with
  | alu64 | alu32 => exact fun _ hchecks => absurd hchecks Bool.false_ne_true
  | load | storeReg | storeImm => exact hexact.2.accessInRange
  | _ => trivial

variable {ir : IrProgram} {W : IrNode → List U32} {ws : List U32} {j : ℕ} {node : IrNode}
  {limit : ℕ} {c c' : Cpu}

/-! ### Where the machine stays -/

section

variable {env : Full.Env} {code : List U8} {m : Machine}

/-- Where the code returns, no step is made. -/
theorem Full.step_of_atRet (h : AtRet code m) : Full.step env code m = .ok m := by
  obtain ⟨w, hfetch, hdecode⟩ := Option.bind_eq_some_iff.1 h
  rw [Full.step_of_fetch env hfetch (Full.decode_of_base hdecode) rfl]
  show (.ok { m with pc := m.pc + 0 } : Rust Empty Machine) = .ok m
  rw [add_zero]

/-- Behind the code no step is made. -/
theorem Full.step_of_fetch_none (h : fetchU32 code m.pc = none) : Full.step env code m = .ok m := by
  unfold Full.step
  rw [h]
  rfl

/-- A word that is no `RET`. -/
theorem not_atRet_of_fetch {w : U32} {i : Instr} {pc : ℤ} (hfetch : fetchU32 code pc = some w)
    (hdecode : decode w = some i) (hi : i ≠ .ret 30) (c : Cpu) : ¬ AtRet code ⟨c, pc⟩ := by
  intro hret
  unfold AtRet at hret
  rw [hfetch, Option.bind_some, hdecode] at hret
  exact hi (Option.some.inj hret)

end

/-! ### The words of one node -/

/-- A node that is no branch. -/
theorem reaches_node [Profile] (hem : Emission emitNode ir.code W branchOf limit) (env : Full.Env)
    (himg : Image W branchOf patch ir ws) (hj : ir.code[j]? = some node)
    (hbranch : branchOf node = none) (hruns : Full.Runs (W node) c c') :
    Reaches (Full.step env (ofWords ws)) 0 maxExpansionRatio (atNode Machine.mk W ir j c)
      (atNode Machine.mk W ir (j + 1) c') := by
  have hcode := codeAt_node himg hj (List.append_nil (W node)).symm (Or.inl hbranch)
  refine Reaches.of_steps (Nat.zero_le _)
    (hem.length_le appendsAtMost_emitNode (List.mem_of_getElem? hj)) ?_
  rw [atNode, atNode, hruns env hcode, wordPos_succ hj, Nat.cast_add, mul_add]

/-- A branch, where the machine does not return. -/
theorem reaches_branch [Profile] (hem : Emission emitNode ir.code W branchOf limit) (env : Full.Env)
    (himg : Image W branchOf patch ir ws) (hj : ir.code[j]? = some node) {t : BasicBlockId}
    {k : Bool} (hbranch : branchOf node = some (t, k)) {pre : List U32} {w : U32}
    (hW : W node = pre ++ [w]) (hline : Line pre c c') {taken : Bool}
    (hpatch : ∀ (d : ℤ) (f : U32 → U32), patch k (4 * d) = some f → ∃ i, decode (f w) = some i ∧
      i ≠ .ret 30 ∧ i.exec c' = c' ∧ i.displacement c' = if taken then 4 * d else 4) {ip : ℕ}
    (hentry : ir.entry t = some ip) :
    ¬ AtRet (ofWords ws) (atNode Machine.mk W ir j c) ∧
      Reaches (Full.step env (ofWords ws)) 1 maxExpansionRatio (atNode Machine.mk W ir j c)
        (atNode Machine.mk W ir (if taken then ip else j + 1) c') := by
  obtain ⟨ip', f, hentry', hf, hfetch⟩ := himg.fetch_branch hj hbranch hW
  rw [hentry] at hentry'
  cases hentry'
  obtain ⟨i, hdecode, hi, hexec, hdisp⟩ := hpatch _ f hf
  have hcode := codeAt_node himg hj hW (Or.inr (List.cons_ne_nil w []))
  -- the first word: that of the branch, or one of those before
  have hno : ¬ AtRet (ofWords ws) (atNode Machine.mk W ir j c) := by
    cases hline with
    | nil =>
      rw [List.length_nil, Nat.cast_zero, mul_zero, add_zero] at hfetch
      exact not_atRet_of_fetch hfetch hdecode hi c
    | cons hdecode' hstraight hrest =>
      refine not_atRet_of_fetch hcode.head hdecode' ?_ c
      rintro rfl
      cases hstraight
  have hlast : Full.step env (ofWords ws)
      ⟨c', 4 * (wordPos W ir.code j : ℤ) + 4 * (pre.length : ℤ)⟩ =
      .ok ⟨c', 4 * (wordPos W ir.code j : ℤ) + 4 * (pre.length : ℤ) +
        if taken then 4 * ((wordPos W ir.code ip : ℤ) - (wordPos W ir.code j + pre.length : ℕ))
        else 4⟩ := by
    rw [Full.step_of_fetch env hfetch (Full.decode_of_base hdecode) rfl, ← hdisp]
    exact congrArg (fun c => Except.ok (⟨c, _⟩ : Machine)) hexec
  have hsucc := wordPos_succ (W := W) hj
  rw [hW, List.length_append, List.length_singleton] at hsucc
  have hle := hem.length_le appendsAtMost_emitNode (List.mem_of_getElem? hj)
  rw [hW, List.length_append, List.length_singleton] at hle
  refine ⟨hno, Reaches.of_steps (Nat.le_add_left 1 _) hle
    (steps_succ_eq_ok.2 ⟨_, (Full.Runs.line hline) env hcode, hlast.trans ?_⟩)⟩
  rw [atNode]
  congr 2
  cases taken with
  | true =>
    rw [if_pos rfl, if_pos rfl]
    push_cast
    ring
  | false =>
    rw [if_neg Bool.false_ne_true, if_neg Bool.false_ne_true, hsucc]
    push_cast
    ring

/-- The words of a load whose offset fits. -/
theorem runs_load {width : MemWidth} {off : I16} (hfits : OffsetFits width off) (d n : Reg)
    (c : Cpu) : Full.Runs (emitLoadNode width (physOf d) (physOf n) off) c
      (c.set d ((loadLe (8 * width.byteLen) width.byteLen c.mem
        (c.x n + off.signExtend 64)).setWidth 64)) := by
  have hword : ∀ {op : U32} {scale : ℕ}, Full.IsTransfer op true scale → scale < 4 →
      width.byteLen = 2 ^ scale →
      Full.Runs [ldst op scale (d.setWidth 8) (n.setWidth 8) off] c
        (c.set d ((loadLe (8 * width.byteLen) width.byteLen c.mem
          (c.x n + off.signExtend 64)).setWidth 64)) := by
    intro op scale h hscale hwidth
    obtain ⟨hlt, haddress⟩ := Full.address_of_fits hwidth hscale hfits
    obtain ⟨i, hdecode, hi⟩ := Full.decode_ldst h hscale d n hlt
    refine Full.Runs.word hdecode (fun env => (hi env 0 c).2.1) (fun env pc => ?_) (hi .idle 0 c).1
    rw [(hi env pc c).2.2.2, haddress, hwidth]
    rfl
  cases width with
  | b => exact hword (by decide : Full.IsTransfer _ true 0) (by decide) rfl
  | h => exact hword (by decide : Full.IsTransfer _ true 1) (by decide) rfl
  | w => exact hword (by decide : Full.IsTransfer _ true 2) (by decide) rfl
  | dw => exact hword (by decide : Full.IsTransfer _ true 3) (by decide) rfl

/-- The words of a store whose offset fits. -/
theorem runs_store {width : MemWidth} {off : I16} (hfits : OffsetFits width off) {r : Reg}
    (hr : r ≠ 31) (n : Reg) (c : Cpu) :
    Full.Runs (emitStoreNode width (physOf n) (physOf r) off) c
      { c with mem := storeLe width.byteLen c.mem (c.x n + off.signExtend 64) (c.x r) } := by
  have hword : ∀ {op : U32} {scale : ℕ}, Full.IsTransfer op false scale → scale < 4 →
      width.byteLen = 2 ^ scale →
      Full.Runs [ldst op scale (r.setWidth 8) (n.setWidth 8) off] c
        { c with mem := storeLe width.byteLen c.mem (c.x n + off.signExtend 64) (c.x r) } := by
    intro op scale h hscale hwidth
    obtain ⟨hlt, haddress⟩ := Full.address_of_fits hwidth hscale hfits
    obtain ⟨i, hdecode, hi⟩ := Full.decode_ldst h hscale r n hlt
    refine Full.Runs.word hdecode (fun env => (hi env 0 c).2.1) (fun env pc => ?_) (hi .idle 0 c).1
    rw [(hi env pc c).2.2.2, haddress, hwidth]
    dsimp only [Full.Instr.execTransfer]
    rw [c.get_true hr]
    rfl
  cases width with
  | b => exact hword (by decide : Full.IsTransfer _ false 0) (by decide) rfl
  | h => exact hword (by decide : Full.IsTransfer _ false 1) (by decide) rfl
  | w => exact hword (by decide : Full.IsTransfer _ false 2) (by decide) rfl
  | dw => exact hword (by decide : Full.IsTransfer _ false 3) (by decide) rfl

/-! ### Between prologue and epilogue -/

/-- Registers that hold their first values between prologue and epilogue. -/
def heldRegs (f : U16) : List Reg :=
  if 0 < f then [23, 24, 26, 27, 28, 30] else [19, 20, 21, 22, 23, 24, 25, 26, 27, 28, 29, 30]

/-- The stack pointer between prologue and epilogue. -/
def frameBase (f : U16) (c₀ : Cpu) : U64 := c₀.x 31 - BitVec.ofNat 64 f.toNat

/-- **Between prologue and epilogue** the machine holds the registers and the stack of the program,
and the frame, if there is one, what the epilogue loads. -/
structure Body (f : U16) (stackPtr : U64) (c₀ : Cpu) (regs : BpfReg → U64)
    (stack : Fin stackSize → U8) (c : Cpu) : Prop where
  regs : ∀ r, c.x (xreg r) = regs r
  held : ∀ r ∈ heldRegs f, c.x r = c₀.x r
  sp : c.x 31 = frameBase f c₀
  saved : 0 < f → Saved c₀ c
  stack : StackIn stackPtr stack (frameBase f c₀) f.toNat c₀.mem c.mem

/-- The frame lies outside of the stack buffer. -/
def FrameApart (f : U16) (stackPtr : U64) (c₀ : Cpu) : Prop :=
  Apart stackPtr stackSize (frameBase f c₀) f.toNat

namespace Body

variable {f : U16} {stackPtr : U64} {c₀ : Cpu} {regs : BpfReg → U64} {stack : Fin stackSize → U8}

/-- Registers of the emitter and flags do not count. -/
theorem same (h : Body f stackPtr c₀ regs stack c) (hsame : SameOutside {9} c c') :
    Body f stackPtr c₀ regs stack c' where
  regs r := (hsame.x _ (xreg_free r).1).trans (h.regs r)
  held r hr := by
    have hne : r ∉ ({9} : Set Reg) := by
      rintro rfl
      unfold heldRegs at hr
      split_ifs at hr <;> revert hr <;> decide
    rw [hsame.x r hne, h.held r hr]
  sp := (hsame.x 31 (by decide)).trans h.sp
  saved hf slot hslot := by
    rw [Cpu.load64, hsame.mem, hsame.x 31 (by decide)]
    exact h.saved hf slot hslot
  stack := by
    rw [hsame.mem]
    exact h.stack

/-- **A result in a register.** -/
theorem write (h : Body f stackPtr c₀ regs stack c) {d : BpfReg} {v : U64} {S : Set Reg}
    (hS : S ⊆ {xreg d, 9, 12}) (hsame : SameOutside S c c') (hv : c'.x (xreg d) = v)
    (hd : ¬ 0 < f → d.index < 6) : Body f stackPtr c₀ (Function.update regs d v) stack c' where
  regs r := by
    by_cases hrd : r = d
    · subst hrd
      rw [hv, Function.update_self]
    · obtain ⟨h9, h12, -⟩ := xreg_free r
      rw [Function.update_of_ne hrd,
        hsame.x _ fun hr => notMem_written (xreg_injective.ne hrd) h9 h12 (hS hr), h.regs r]
  held r hr := by
    have hne : r ≠ xreg d ∧ r ≠ 9 ∧ r ≠ 12 := by
      unfold heldRegs at hr
      split_ifs at hr with hf
      · have hall : ∀ r ∈ ([23, 24, 26, 27, 28, 30] : List Reg), ∀ d,
            r ≠ xreg d ∧ r ≠ 9 ∧ r ≠ 12 := by
          decide
        exact hall r hr d
      · have hall : ∀ r ∈ ([19, 20, 21, 22, 23, 24, 25, 26, 27, 28, 29, 30] : List Reg), ∀ d,
            d.index < 6 → r ≠ xreg d ∧ r ≠ 9 ∧ r ≠ 12 := by
          decide
        exact hall r hr d (hd hf)
    rw [hsame.x r fun hr' => notMem_written hne.1 hne.2.1 hne.2.2 (hS hr'), h.held r hr]
  sp := by
    have h31 : (31 : Reg) ∉ ({xreg d, 9, 12} : Set Reg) :=
      notMem_written (xreg_free d).2.2.2.2.symm (by decide) (by decide)
    rw [hsame.x 31 fun hr => h31 (hS hr), h.sp]
  saved hf slot hslot := by
    have h31 : (31 : Reg) ∉ ({xreg d, 9, 12} : Set Reg) :=
      notMem_written (xreg_free d).2.2.2.2.symm (by decide) (by decide)
    rw [Cpu.load64, hsame.mem, hsame.x 31 fun hr => h31 (hS hr)]
    exact h.saved hf slot hslot
  stack := by
    rw [hsame.mem]
    exact h.stack

/-- **A store to the buffer.** -/
theorem store (h : Body f stackPtr c₀ regs stack c) (hframe : FrameSize f)
    (hapart : FrameApart f stackPtr c₀) {base : U64} {off : I16} {width : MemWidth}
    (hin : InBuffer stackPtr base off width) (val : U64) :
    Body f stackPtr c₀ regs (stackWritten stack (bufferIndex stackPtr base off) width val)
      { c with mem := storeLe width.byteLen c.mem (base + off.signExtend 64) val } where
  regs := h.regs
  held := h.held
  sp := h.sp
  saved hf slot hslot := by
    have hge := hframe.ge fun hzero => by
      rw [hzero] at hf
      exact absurd hf (by decide)
    have hlt := f.isLt
    have hend : slot.1 + 8 ≤ 64 := by
      have hall : ∀ slot ∈ frameSlots, slot.1 + 8 ≤ 64 := by decide
      exact hall slot hslot
    rw [← h.saved hf slot hslot, Cpu.load64, Cpu.load64, h.sp]
    exact StackIn.loadLe_store hapart hin val (by omega) (by omega)
  stack := h.stack.store hin val

end Body

/-! ### Instructions -/

section

variable [Profile] (hem : Emission emitNode ir.code W branchOf limit) {f : U16} {stackPtr : U64}
  {c₀ : Cpu} {s : InterpreterState} (hbody : Body f stackPtr c₀ s.regs s.stack c)
  {insn : Insn} {pcToBb : List BasicBlockId} {frameSize : U16} {pc : ℕ}
  (hlow : lowerInsn aarch64Regmap pcToBb frameSize pc insn = .ok [node])
  (hj : ir.code[j]? = some node)

omit [Profile] in
include hbody in
theorem Body.operandVal_eq (src : Source) :
    operandVal c (aarch64Regmap.translateSource src) = resolveSource s.regs src := by
  cases src with
  | imm v => rfl
  | reg r =>
    have hsrc : aarch64Regmap.translateSource (.reg r) = .reg (physOf (xreg r)) :=
      congrArg Operand.reg (phys_eq r)
    rw [hsrc, operandVal_physOf, hbody.regs r]
    rfl

include hem hbody hlow hj

/-- **An instruction with a result** has words that leave it in the register. -/
theorem puts_result (hexact : Exact stackPtr s insn) {d : BpfReg} {v : U64}
    (hres : insn.result stackPtr s = some (d, v)) :
    branchOf node = none ∧ Full.Puts (W node) {xreg d, 9, 12} c (xreg d) v := by
  obtain ⟨h9, h12, -, -, h31⟩ := xreg_free d
  have hsub : ({xreg d} : Set Reg) ⊆ {xreg d, 9, 12} := by simp
  cases insn with
  | alu64 op dst src =>
    cases hres
    cases hlow
    obtain ⟨ns, hns, hwrites⟩ := writes_alu64 (ε := AArch64EmitError) op h9 h12 h31
      (freeOperand_translateSource src)
    rw [← phys_eq] at hns
    have hW := words_eq hem hj fun e => by
      rw [emitNode, hns]
      exact congrArg Except.ok (e.emitWords_eq ns)
    have hputs := Full.Puts.of_writes (hwrites c)
    rw [hbody.operandVal_eq src, hbody.regs d] at hputs
    exact ⟨rfl, hW ▸ hputs⟩
  | alu32 op dst src =>
    cases hres
    cases hlow
    have hputs := Full.Puts.of_writes
      (writes_alu32 op h9 h12 h31 (freeOperand_translateSource src) c)
    rw [← phys_eq, hbody.operandVal_eq src, hbody.regs d] at hputs
    rw [words_eq hem hj fun e => congrArg Except.ok (e.emitWords_eq _)]
    exact ⟨rfl, hputs⟩
  | loadImm64 dst imm =>
    cases hres
    cases hlow
    have hputs := Full.Puts.of_writes (writes_loadImm64 h31 v c)
    rw [← phys_eq] at hputs
    rw [words_eq hem hj fun e => congrArg Except.ok (e.emitWords_eq _)]
    exact ⟨rfl, hputs.mono hsub⟩
  | load width dst src off =>
    cases hres
    cases hlow
    obtain ⟨hfits, hin⟩ := hexact
    have hruns := runs_load hfits (xreg d) (xreg src) c
    rw [hbody.regs src, loadLe_eq_stackValue hbody.stack.buffer hin, ← phys_eq, ← phys_eq] at hruns
    rw [words_eq hem hj fun e => congrArg Except.ok (e.emitWords_eq _)]
    exact ⟨rfl, _, hruns, c.set_x_self _ h31, (SameOutside.set c _ _).mono hsub⟩
  | endian toBe width dst =>
    cases hres
    cases hlow
    have hconv : Converts toBe width c (xreg d) := by
      cases toBe with
      | true => exact fun hwidth => absurd hwidth hexact
      | false =>
        show Narrow width (c.x (xreg d))
        rw [hbody.regs d]
        exact hexact
    have hputs := (endianNode_iff toBe width h31 c).2 hconv
    rw [← phys_eq, hbody.regs d] at hputs
    rw [words_eq hem hj fun e => congrArg Except.ok (e.emitWords_eq _)]
    exact ⟨rfl, hputs.mono hsub⟩
  | _ => cases hres

/-- **A store** has words that store to the buffer, and may use `X9`. -/
theorem runs_stored (hexact : Exact stackPtr s insn) {width : MemWidth} {base val : U64} {off : I16}
    (hstored : insn.stored s = some (width, base, off, val)) :
    branchOf node = none ∧ InBuffer stackPtr base off width ∧ ∃ c₁, SameOutside {9} c c₁ ∧
      Full.Runs (W node) c
        { c₁ with mem := storeLe width.byteLen c₁.mem (base + off.signExtend 64) val } := by
  cases insn with
  | storeReg width dst src off =>
    cases hstored
    cases hlow
    obtain ⟨hfits, hin⟩ := hexact
    have hruns := runs_store hfits (xreg_free src).2.2.2.2 (xreg dst) c
    rw [hbody.regs dst, hbody.regs src, ← phys_eq, ← phys_eq] at hruns
    rw [words_eq hem hj fun e => congrArg Except.ok (e.emitWords_eq _)]
    exact ⟨rfl, hin, c, SameOutside.refl _ c, hruns⟩
  | storeImm width dst off imm =>
    cases hstored
    cases hlow
    obtain ⟨hfits, hin⟩ := hexact
    obtain ⟨c₁, hline, hv, hsame⟩ := writes_loadImm64 (d := 9) (by decide) (imm.signExtend 64) c
    have hruns := runs_store hfits (r := 9) (by decide) (xreg dst) c₁
    rw [(hbody.same hsame).regs dst, hv, ← phys_eq] at hruns
    rw [words_eq hem hj fun e => congrArg Except.ok (e.emitWords_eq _)]
    exact ⟨rfl, hin, c₁, hsame, (Full.Runs.line hline).append hruns⟩
  | _ => cases hstored

end

/-! ### Jumps -/

section

variable [Profile] (hem : Emission emitNode ir.code W branchOf limit)
  (himg : Image W branchOf patch ir ws) (env : Full.Env) {f : U16} {stackPtr : U64} {c₀ : Cpu}
  {s : InterpreterState} (hbody : Body f stackPtr c₀ s.regs s.stack c)

include hem himg hbody

/-- A comparison and a branch. -/
theorem reaches_compare {op : JmpOp} {l : BpfReg} {src : Source} {is32bit : Bool} {t : BasicBlockId}
    (hj : ir.code[j]? = some
      (.branch ⟨op, aarch64Regmap.phys l, aarch64Regmap.translateSource src, is32bit⟩ t))
    {ip : ℕ} (hentry : ir.entry t = some ip)
    (hbit : op = .jset → BitTestIsNe ((s.regs l).setWidth (width !is32bit))
      ((resolveSource s.regs src).setWidth (width !is32bit))) :
    ¬ AtRet (ofWords ws) (atNode Machine.mk W ir j c) ∧ ∃ c', SameOutside {9} c c' ∧
      Reaches (Full.step env (ofWords ws)) 1 maxExpansionRatio (atNode Machine.mk W ir j c)
        (atNode Machine.mk W ir (if op.holds ((s.regs l).setWidth (width !is32bit))
          ((resolveSource s.regs src).setWidth (width !is32bit)) then ip else j + 1) c') := by
  obtain ⟨h9, -, -, -, h31⟩ := xreg_free l
  have hfree := freeOperand_translateSource src
  have hW := words_eq hem hj fun e => congrArg Except.ok (emitBranchNode_eq e _ t)
  rw [branchWords_eq] at hW
  have hlhs : (⟨op, aarch64Regmap.phys l, aarch64Regmap.translateSource src, is32bit⟩ :
      BranchCond).lhs = physOf (xreg l) := phys_eq l
  obtain ⟨c', hline, hsame, hflags⟩ := compare_line hlhs h9 hfree.reg c
  refine (reaches_branch hem env himg hj rfl hW hline (fun d g hg => ?_) hentry).imp_right
    fun hreach => ⟨c', hsame, hreach⟩
  obtain ⟨imm19, hdecode, rfl⟩ := patch_conditional op hg
  refine ⟨_, hdecode, Instr.noConfusion, rfl, ?_⟩
  dsimp only [Instr.displacement]
  rw [hflags, operandOrZero_eq hfree, hbody.operandVal_eq src, regOrZero, if_neg h31, hbody.regs l,
    (holds_eq_flags_iff op (!is32bit) _ _).2 hbit]

/-- **A jump** goes where the interpreter goes. -/
theorem reaches_jump {insn : Insn} {pcToBb : List BasicBlockId} {frameSize : U16} {pc : ℕ}
    (hlow : lowerInsn aarch64Regmap pcToBb frameSize pc insn = .ok [node])
    (hj : ir.code[j]? = some node) (hexact : Exact stackPtr s insn) {off : I16}
    (hoff : insn.jumpOff = some off) {t : BasicBlockId} (htarget : node.target = some t) {ip : ℕ}
    (hentry : ir.entry t = some ip) :
    ¬ AtRet (ofWords ws) (atNode Machine.mk W ir j c) ∧ ∃ c', SameOutside {9} c c' ∧
      Reaches (Full.step env (ofWords ws)) 1 maxExpansionRatio (atNode Machine.mk W ir j c)
        (atNode Machine.mk W ir (if insn.taken s.regs then ip else j + 1) c') := by
  cases insn with
  | ja off' =>
    obtain ⟨t', -, hlow⟩ := bind_eq_ok.1 hlow
    cases hlow
    cases htarget
    have hW : W (.jump t) = [] ++ [bImm 0] := words_eq hem hj fun e =>
      congrArg Except.ok (e.pushRelocation_emit32 (bImm 0) t false)
    refine (reaches_branch hem env himg hj rfl hW (Line.nil c) (fun d g hg => ?_)
      hentry).imp_right fun hreach => ⟨c, SameOutside.refl _ c, hreach⟩
    obtain ⟨imm26, hdecode, rfl⟩ := patch_unconditional hg (bImm 0)
    exact ⟨_, hdecode, Instr.noConfusion, rfl, rfl⟩
  | jmpCond op l src off' =>
    obtain ⟨t', -, hlow⟩ := bind_eq_ok.1 hlow
    cases hlow
    cases htarget
    have hjump := reaches_compare hem himg env hbody hj hentry hexact
    show _ ∧ ∃ c', SameOutside {9} c c' ∧ Reaches _ _ _ _ (atNode Machine.mk W ir
      (if evalJmp op (s.regs l) (resolveSource s.regs src) then ip else j + 1) c')
    rw [evalJmp_eq]
    exact hjump
  | jmpCond32 op l src off' =>
    obtain ⟨t', -, hlow⟩ := bind_eq_ok.1 hlow
    cases hlow
    cases htarget
    have hjump := reaches_compare hem himg env hbody hj hentry hexact.2
    have heval := (evalJmp_zeroExtend op _ _).2 hexact.1
    show _ ∧ ∃ c', SameOutside {9} c c' ∧ Reaches _ _ _ _ (atNode Machine.mk W ir
      (if evalJmp op ((low (s.regs l)).setWidth 64)
        ((low (resolveSource s.regs src)).setWidth 64) then ip else j + 1) c')
    rw [heval]
    exact hjump
  | _ => cases hoff

end

/-! ### Prologue and epilogue -/

/-- The machine before the first instruction. -/
structure Start (stackPtr : U64) (c₀ : Cpu) (regs : BpfReg → U64) (stack : Fin stackSize → U8)
    (c : Cpu) : Prop where
  eq : c = c₀
  regs : ∀ r, c₀.x (xreg r) = regs r
  stack : BytesAt c₀.mem stackPtr stack

/-- `X19` to `X30`. -/
def givenBack : List Reg := [19, 20, 21, 22, 23, 24, 25, 26, 27, 28, 29, 30]

/-- **The machine at the return**: `X0` holds the result, the registers a function gives back hold
their first values, the stack pointer too unless the frame has 512 bytes, the buffer holds the
stack, and the rest of memory outside of the frame is as before. -/
structure Returned (f : U16) (stackPtr : U64) (c₀ : Cpu) (regs : BpfReg → U64)
    (stack : Fin stackSize → U8) (c : Cpu) : Prop where
  result : c.x 0 = regs BpfReg.r0
  given : ∀ r ∈ givenBack, c.x r = c₀.x r
  sp : f ≠ 512 → c.x 31 = c₀.x 31
  stack : StackIn stackPtr stack (frameBase f c₀) f.toNat c₀.mem c.mem

section

variable {f : U16} {stackPtr : U64} {c₀ : Cpu} {regs : BpfReg → U64} {stack : Fin stackSize → U8}

/-- Without a frame. -/
theorem Start.body (h : Start stackPtr c₀ regs stack c) (hf : ¬ 0 < f) :
    Body f stackPtr c₀ regs stack c := by
  obtain ⟨rfl, hregs, hstack⟩ := h
  refine ⟨hregs, fun _ _ => rfl, ?_, fun hpos => absurd hpos hf, StackIn.start hstack _ _⟩
  have hzero : f = 0 := BitVec.eq_of_toNat_eq (Nat.le_zero.1 (BitVec.not_lt.1 hf))
  rw [frameBase, hzero]
  exact (BitVec.sub_zero _).symm

/-- **A prologue.** -/
theorem Start.afterPrologue (h : Start stackPtr c₀ regs stack c) (hframe : FrameSize f)
    (hf : 0 < f) (hapart : FrameApart f stackPtr c₀) :
    Body f stackPtr c₀ regs stack (afterPrologue f c) := by
  obtain ⟨rfl, hregs, hstack⟩ := h
  have hbase : c.x 31 + pairOffset (-f) = frameBase f c := by
    rw [pairOffset_neg hframe, frameBase, BitVec.sub_eq_add_neg]
  have hx : ∀ r, r ≠ 31 → r ≠ 29 → (Aarch64.afterPrologue f c).x r = c.x r := by
    intro r h31 h29
    dsimp only [Aarch64.afterPrologue]
    rw [Function.update_of_ne h29, Function.update_of_ne h31]
  refine ⟨fun r => ?_, fun r hr => ?_, ?_, fun _ => saved_afterPrologue f c, ?_⟩
  · obtain ⟨-, -, h29, -, h31⟩ := xreg_free r
    rw [hx _ h31 h29, hregs r]
  · rw [heldRegs, if_pos hf] at hr
    have hall : ∀ r ∈ ([23, 24, 26, 27, 28, 30] : List Reg), r ≠ 31 ∧ r ≠ 29 := by decide
    exact hx r (hall r hr).1 (hall r hr).2
  · rw [afterPrologue_x_sp, hbase]
  · show StackIn stackPtr stack _ _ _ (storeSlots c.mem (c.x 31 + pairOffset (-f)) _)
    rw [hbase]
    have hge := hframe.ge fun hzero => by
      rw [hzero] at hf
      exact absurd hf (by decide)
    have hlt := f.isLt
    refine (StackIn.start hstack _ _).storeSlots hapart (fun slot hslot => ?_) (by omega)
    obtain ⟨slot', hslot', rfl⟩ := List.mem_map.1 hslot
    have hall : ∀ slot ∈ frameSlots, slot.1 + 8 ≤ 64 := by decide
    exact (hall slot' hslot').trans hge

/-- The result in `X0`. -/
theorem Body.returned (h : Body f stackPtr c₀ regs stack c) (hf : ¬ 0 < f) :
    Returned f stackPtr c₀ regs stack (c.set 0 (c.x 7)) where
  result := by
    rw [c.set_x_self _ (by decide)]
    exact h.regs BpfReg.r0
  given r hr := by
    have hne : r ≠ 0 := by
      rintro rfl
      revert hr
      decide
    rw [c.set_x_of_ne _ hne]
    refine h.held r ?_
    rw [heldRegs, if_neg hf]
    exact hr
  sp _ := by
    have hzero : f = 0 := BitVec.eq_of_toNat_eq (Nat.le_zero.1 (BitVec.not_lt.1 hf))
    rw [c.set_x_of_ne _ (by decide), h.sp, frameBase, hzero]
    exact BitVec.sub_zero _
  stack := by
    rw [c.set_mem]
    exact h.stack

/-- **An epilogue**, and the result in `X0`. -/
theorem Body.epilogue (h : Body f stackPtr c₀ regs stack c) (hframe : FrameSize f) (hf : 0 < f) :
    ∃ c', Line (emitEpilogue f) c c' ∧
      Returned f stackPtr c₀ regs stack (c'.set 0 (c'.x 7)) := by
  obtain ⟨c', hline, hsp, hslots, hother, hmem⟩ := epilogue_line f c
  have hloads : ∀ slot ∈ frameSlots, c'.x slot.2 = c₀.x slot.2 := by
    intro slot hslot
    rw [hslots slot hslot, h.saved hf slot hslot]
  refine ⟨c', hline, ?_, fun r hr => ?_, fun hne => ?_, ?_⟩
  · rw [c'.set_x_self _ (by decide), hother 7 (by decide) (by decide)]
    exact h.regs BpfReg.r0
  · have hall : ∀ r ∈ givenBack, r ≠ 0 ∧ ((∃ slot ∈ frameSlots, slot.2 = r) ∨
        r ≠ 31 ∧ (∀ slot ∈ frameSlots, slot.2 ≠ r) ∧
          r ∈ ([23, 24, 26, 27, 28, 30] : List Reg)) := by
      decide
    obtain ⟨hne, ⟨slot, hslot, rfl⟩ | ⟨h31, hno, hheld⟩⟩ := hall r hr
    · rw [c'.set_x_of_ne _ hne, hloads slot hslot]
    · rw [c'.set_x_of_ne _ hne, hother r h31 hno]
      refine h.held r ?_
      rw [heldRegs, if_pos hf]
      exact hheld
  · rw [c'.set_x_of_ne _ (by decide), hsp, h.sp, pairOffset_pos hframe hne, frameBase,
      BitVec.sub_add_cancel]
  · rw [c'.set_mem, hmem]
    exact h.stack

end

/-! ### Programs -/

section

variable [Profile] {insns : List Insn} {flags : List Bool} {pcToBb : List BasicBlockId}
  {nodes : ℕ → List IrNode} (h : Lowering insns aarch64Regmap flags pcToBb nodes ir)
  (hacc : Accepted insns) (hem : Emission emitNode ir.code W branchOf limit)
  (himg : Image W branchOf patch ir ws) (env : Full.Env) {stackPtr : U64} {c₀ : Cpu}

include h hacc hem himg

omit h hacc in
/-- The words of a return. -/
theorem reaches_ret {f : U16} {regs : BpfReg → U64} {stack : Fin stackSize → U8}
    (hret : ir.code[j]? = some .ret) (hc : Returned f stackPtr c₀ regs stack (c.set 0 (c.x 7))) :
    ∃ m : Machine, AtRet (ofWords ws) m ∧ Returned f stackPtr c₀ regs stack m.toCpu ∧
      Reaches (Full.step env (ofWords ws)) 0 maxExpansionRatio (atNode Machine.mk W ir j c) m := by
  have hW : W .ret = [movXReg 0 7] ++ [ret] := words_ret (t := ⟨j, fun _ => 0, stack⟩) hem hret
  have hdecode : decode (movXReg 0 7) = some (.data .orr true 0 31 7) := by decide
  have hexec : (Instr.data .orr true 0 31 7).exec c = c.set 0 (c.x 7) := by
    dsimp only [Instr.exec, DataOp.setFlags, DataOp.eval]
    rw [c.get_zero, c.get_true (by decide)]
    congr 1
    exact (BitVec.setWidth_eq _).trans (BitVec.zero_or)
  have hline := Line.word hdecode rfl c
  rw [hexec] at hline
  have hcode := codeAt_node himg hret hW (Or.inl rfl)
  refine ⟨⟨c.set 0 (c.x 7), 4 * (wordPos W ir.code j : ℤ) + 4 * (1 : ℕ)⟩,
    ?_, hc, Reaches.of_steps (Nat.zero_le _) (by decide) ((Full.Runs.line hline) env hcode)⟩
  exact atRet_word (t := ⟨j, fun _ => 0, stack⟩) hem himg hret _

/-- **The code of a program realizes the interpreter.** -/
theorem realizes (hof : FrameOf insns ir.frameSize) (hapart : FrameApart ir.frameSize stackPtr c₀) :
    Realizes Machine.mk (Full.step env (ofWords ws)) maxExpansionRatio (AtRet (ofWords ws)) W ir
      insns nodes stackPtr (Exact stackPtr) (Start stackPtr c₀) (Body ir.frameSize stackPtr c₀)
      (fun regs stack m => Returned ir.frameSize stackPtr c₀ regs stack m.toCpu) where
  stays _ hret := Full.step_of_atRet hret
  prologue := by
    intro hf hj regs stack c hstart
    have hsize : ir.frameSize.toNat < 2 ^ 15 := lt_of_le_of_lt h.frameSize.le (by decide)
    obtain ⟨ns, hns, hline⟩ := prologue_line (ε := AArch64EmitError) hsize
    have hW := words_eq hem hj fun e => by
      rw [emitNode, hns]
      exact congrArg Except.ok (e.emitWords_eq ns)
    have hruns := Full.Runs.line (hline c)
    rw [← hW] at hruns
    exact ⟨_, hstart.afterPrologue h.frameSize hf hapart, reaches_node hem env himg hj rfl hruns⟩
  node := by
    intro pc insn node hget hoff hexit hns j hj s s' c hexact hstep hbody
    have hlow := h.lower_eq pc insn hget
    rw [hns] at hlow
    cases hres : insn.result stackPtr s with
    | some dv =>
      obtain ⟨d, v⟩ := dv
      obtain ⟨hbranch, c', hruns, hv, hsame⟩ := puts_result hem hbody hlow hj hexact hres
      obtain ⟨hregs, hstack⟩ := stepInsn_write hres hstep
      rw [hregs, hstack]
      exact ⟨c', hbody.write subset_rfl hsame hv (hof.index_lt hacc hget hres),
        reaches_node hem env himg hj hbranch hruns⟩
    | none =>
      cases hstored : insn.stored s with
      | some access =>
        obtain ⟨width, base, off, val⟩ := access
        obtain ⟨hbranch, hin, c₁, hsame, hruns⟩ := runs_stored hem hbody hlow hj hexact hstored
        obtain ⟨hregs, hstack⟩ := stepInsn_store hstored hstep
        rw [hregs, hstack]
        exact ⟨_, (hbody.same hsame).store h.frameSize hapart hin val,
          reaches_node hem env himg hj hbranch hruns⟩
      | none =>
        -- what remains are jumps, `Exit`, calls and atomic operations
        cases insn with
        | ja | jmpCond | jmpCond32 => cases hoff
        | exit => exact absurd rfl hexit
        | call | tailCall | atomic => exact hexact.elim
        | alu64 | alu32 | loadImm64 | load | endian => cases hres
        | storeReg | storeImm => cases hstored
  jump := by
    intro pc insn node off t ip hget hoff hns htarget hentry j hj s c hexact hbody
    have hlow := h.lower_eq pc insn hget
    rw [hns] at hlow
    obtain ⟨hno, c', hsame, hreach⟩ :=
      reaches_jump hem himg env hbody hlow hj hexact hoff htarget hentry
    exact ⟨hno, c', hbody.same hsame, hreach⟩
  exit := by
    intro pc hget regs stack c hbody
    by_cases hf : 0 < ir.frameSize
    · obtain ⟨hepi, hret⟩ := h.code_exit hacc.ne_nil hf hget
      obtain ⟨c', hline, hreturned⟩ := hbody.epilogue h.frameSize hf
      have hW := words_eq hem hepi fun e =>
        congrArg Except.ok (e.emitWords_eq (emitEpilogue ir.frameSize))
      have hruns := Full.Runs.line hline
      rw [← hW] at hruns
      have hreach := reaches_node hem env himg hepi rfl hruns
      obtain ⟨m, hatRet, hm, hreach'⟩ := reaches_ret hem himg env hret hreturned
      exact ⟨m, hatRet, hm, (hreach.trans hreach').mono le_rfl (Nat.two_mul _).ge⟩
    · obtain ⟨m, hatRet, hm, hreach⟩ := reaches_ret hem himg env
        (h.code_exit_zero hacc.ne_nil hf hget) (hbody.returned hf)
      exact ⟨m, hatRet, hm, hreach.mono le_rfl (Nat.le_mul_of_pos_left _ (by decide))⟩
  behind := by
    intro j hnone c
    have hfetch := himg.fetch_end hnone
    refine ⟨fun hret => ?_, Full.step_of_fetch_none hfetch⟩
    unfold AtRet atNode at hret
    rw [hfetch] at hret
    cases hret

end

end Aarch64

variable [Profile] {insns : List Insn}

section

variable {raw : List RawInsn} {out : JitOutput} (hdec : decodeProgram raw = .ok insns)
  (hout : compile raw .aArch64 = .ok out) {stackPtr : U64} {regs : BpfReg → U64}
  {stack : Fin stackSize → U8} {c : Aarch64.Cpu} (hregs : ∀ r, c.x (Aarch64.xreg r) = regs r)
  (hstack : BytesAt c.mem stackPtr stack)
  (hapart : Aarch64.FrameApart out.ir.frameSize stackPtr c) (env : Aarch64.Full.Env)

include hdec hout hregs hstack hapart

/-- Compiled code realizes the interpreter, on a machine with its registers. -/
theorem compiled_aarch64_realizes : ∃ flags pcToBb nodes W,
    Lowering insns aarch64Regmap flags pcToBb nodes out.ir ∧ Accepted insns ∧
      Realizes Aarch64.Machine.mk (Aarch64.Full.step env out.code) Aarch64.maxExpansionRatio
        (Aarch64.AtRet out.code) W out.ir insns nodes stackPtr (Aarch64.Exact stackPtr)
        (Aarch64.Start stackPtr c) (Aarch64.Body out.ir.frameSize stackPtr c)
        (fun regs stack m => Aarch64.Returned out.ir.frameSize stackPtr c regs stack m.toCpu) ∧
      if 0 < out.ir.frameSize then Aarch64.Start stackPtr c regs stack c
        else Aarch64.Body out.ir.frameSize stackPtr c regs stack c := by
  obtain ⟨hacc, flags, pcToBb, nodes, W, ws, h, hem, hcode, himg⟩ :=
    compile_aarch64_image hdec hout
  obtain ⟨-, hir, -⟩ := compile_stages hdec hout
  have hof := lowerToIr_frameOf hacc hir
  have hreal := Aarch64.realizes h hacc hem himg env hof hapart
  rw [← hcode] at hreal
  have hstart : Aarch64.Start stackPtr c regs stack c := ⟨rfl, hregs, hstack⟩
  refine ⟨flags, pcToBb, nodes, W, h, hacc, hreal, ?_⟩
  split_ifs with hf
  · exact hstart
  · exact hstart.body hf

/-- The code of a program whose run is exact. -/
theorem compiled_aarch64_reaches {k : ℕ} {s : InterpreterState}
    (hrun : @stepN release stackPtr insns (.start regs stack) k = .ok s) (hexit : Exited insns s)
    (hexact : ExactRun (Aarch64.Exact stackPtr) stackPtr insns out.ir.frameSize
      (.start regs stack) k) :
    ∃ n m', n ≤ Aarch64.maxExpansionRatio * (k + 2) ∧
      steps (Aarch64.Full.step env out.code) ⟨c, 0⟩ n = .ok m' ∧ Aarch64.AtRet out.code m' ∧
      Aarch64.Returned out.ir.frameSize stackPtr c s.regs s.stack m'.toCpu := by
  obtain ⟨flags, pcToBb, nodes, W, h, hacc, hreal, hstart⟩ :=
    compiled_aarch64_realizes hdec hout hregs hstack hapart env
  obtain ⟨m', hatRet, hreturned, n, -, hle, hsteps⟩ :=
    hreal.final h hacc hstart hrun hexact hexit
  exact ⟨n, m', hle, hsteps, hatRet, hreturned⟩

end

/-- **Compiled programs with memory, on AArch64.**  Let an accepted program be compiled, and let the
interpreter, with wrapping negation, run it to its `Exit` by exact instructions only.  A machine
that starts the code with the same `R1` in `X0`, `R10` in `X25` and stack in memory, outside of the
frame, and with anything in the other registers, comes to `RET` with the result in `X0`, the stack
of the interpreter in the buffer, the registers a function gives back, and the rest of memory
outside of the frame as it was.  It executes at most eight instructions for each step of the
interpreter, and sixteen more. -/
theorem compile_aarch64_exact {raw : List RawInsn} {out : JitOutput}
    (hdec : decodeProgram raw = .ok insns) (hout : compile raw .aArch64 = .ok out) {stackPtr : U64}
    {regs : BpfReg → U64} {stack : Fin stackSize → U8} {k : ℕ} {s : InterpreterState}
    (hrun : @stepN release stackPtr insns (.start regs stack) k = .ok s) (hexit : Exited insns s)
    (hexact : ExactRun (Aarch64.Exact stackPtr) stackPtr insns out.ir.frameSize
      (.start regs stack) k)
    {m : Aarch64.Machine} (hpc : m.pc = 0) (hx0 : m.x 0 = regs BpfReg.r1)
    (hx25 : m.x 25 = regs BpfReg.r10) (hstack : BytesAt m.mem stackPtr stack)
    (hapart : Aarch64.FrameApart out.ir.frameSize stackPtr m.toCpu) (env : Aarch64.Full.Env) :
    ∃ n m', n ≤ Aarch64.maxExpansionRatio * (k + 2) ∧
      steps (Aarch64.Full.step env out.code) m n = .ok m' ∧ Aarch64.AtRet out.code m' ∧
      Aarch64.Returned out.ir.frameSize stackPtr m.toCpu s.regs s.stack m'.toCpu := by
  have hv := (compile_stages hdec hout).1.toVerified
  rcases m with ⟨c, pc⟩
  dsimp only at hpc hx0 hx25 hstack hapart
  subst hpc
  -- the interpreter, started with the registers of the machine
  let regs' : BpfReg → U64 := fun r => c.x (Aarch64.xreg r)
  have hstart : InStep insns (.start regs stack) (.start regs' stack) :=
    InStep.start stack hx0.symm hx25.symm
  obtain ⟨s', hrun', hsame, hstack', hexit'⟩ :=
    @InStep.exists_exited _ _ _ _ release hv hstart _ _ hrun hexit
  obtain ⟨n, m', hle, hsteps, hatRet, hreturned⟩ := compiled_aarch64_reaches hdec hout
    (fun _ => rfl) hstack hapart env hrun' hexit'
    (hexact.of_inStep (Aarch64.readsOnly_exact stackPtr) hv hstart)
  refine ⟨n, m', hle, hsteps, hatRet, ?_⟩
  rw [hstack']
  exact { hreturned with result := hreturned.result.trans hsame.symm }

/-- `r6 = r10; r6 += -8; *(u64 *)(r6 + 0) = 5; r0 = *(u64 *)(r6 + 0); exit`. -/
def storeThenLoad : List RawInsn :=
  [⟨0xbf, 0xa6, 0, 0⟩, ⟨0x07, 0x06, 0, -8⟩, ⟨0x7a, 0x06, 0, 5⟩, ⟨0x79, 0x60, 0, 0⟩,
    ⟨0x95, 0, 0, 0⟩]

/-- `storeThenLoad`, decoded. -/
def storeThenLoadInsns : List Insn :=
  [.alu64 .mov BpfReg.r6 (.reg BpfReg.r10), .alu64 .add BpfReg.r6 (.imm (-8)),
    .storeImm .dw BpfReg.r6 0 5, .load .dw BpfReg.r0 BpfReg.r6 0, .exit]

omit [Profile] in
theorem decode_storeThenLoad : decodeProgram storeThenLoad = .ok storeThenLoadInsns := by
  decide +kernel

/-- Registers with the end of the buffer at `0x1000` in `R10`. -/
def bufferRegs : BpfReg → U64 := fun r => if r = BpfReg.r10 then 0x1200 else 0

/-- A machine with these values in `X0` and `X25`, the stack pointer at `0x8000`, and 5 in the other
registers. -/
def Aarch64.Machine.withBuffer : Aarch64.Machine where
  x r := if r = 0 then 0 else if r = 25 then 0x1200 else if r = 31 then 0x8000 else 5
  flags := ⟨false, false, false, false⟩
  mem _ := 0
  pc := 0

omit [Profile] in
theorem Aarch64.frameApart_withBuffer {f : U16} (hle : f.toNat ≤ 512) :
    FrameApart f 0x1000 Machine.withBuffer.toCpu := by
  have hbase : (frameBase f Machine.withBuffer.toCpu).toNat = 0x8000 - f.toNat := by
    show ((0x8000 : U64) - BitVec.ofNat 64 f.toNat).toNat = _
    have htop : (0x8000 : U64).toNat = 0x8000 := rfl
    rw [BitVec.toNat_sub, BitVec.toNat_ofNat, htop]
    omega
  have hbuf : (0x1000 : U64).toNat = 0x1000 := rfl
  refine Apart.of_le ?_ ?_
  · unfold stackSize
    omega
  · omega

omit [Profile] in
theorem exactRun_storeThenLoad (f : U16) :
    ExactRun (Aarch64.Exact 0x1000) 0x1000 storeThenLoadInsns f
      (.start bufferRegs fun _ => 0) 5 := by
  have hfits : Aarch64.OffsetFits .dw 0 := ⟨by decide, by decide, by decide⟩
  refine (ExactRun.zero _ _ _ _ _).step rfl rfl trivial rfl ?_ |>.step rfl rfl trivial rfl ?_
    |>.step rfl rfl ⟨hfits, ?_⟩ rfl ?_ |>.step rfl rfl ⟨hfits, ?_⟩ rfl ?_
    |>.step rfl rfl trivial rfl ?_
  all_goals decide +kernel

omit [Profile] in
theorem run_storeThenLoad :
    ∃ s, @stepN release 0x1000 storeThenLoadInsns (.start bufferRegs fun _ => 0) 5 = .ok s ∧
      Exited storeThenLoadInsns s ∧ s.regs BpfReg.r0 = 5 := by
  refine ⟨_, rfl, ⟨rfl, rfl⟩, ?_⟩
  decide +kernel

omit [Profile] in
/-- `compile_aarch64_exact` at `storeThenLoad`: the machine returns 5. -/
theorem compile_aarch64_exact_storeThenLoad :
    ∃ out, @compile debug storeThenLoad .aArch64 = .ok out ∧ ∃ n m',
      steps (Aarch64.Full.step .idle out.code) .withBuffer n = .ok m' ∧
        Aarch64.AtRet out.code m' ∧ m'.x 0 = 5 := by
  obtain ⟨out, hout⟩ := exists_ok_of_isOk
    (by decide +kernel : (@compile debug storeThenLoad .aArch64).isOk = true)
  refine ⟨out, hout, ?_⟩
  obtain ⟨hacc, hir, -⟩ := @compile_stages debug _ _ _ _ decode_storeThenLoad hout
  have hle := (@lowerToIr_frameOf _ debug hacc _ _ hir).le
  have hapart := Aarch64.frameApart_withBuffer hle
  obtain ⟨s, hrun, hexit, hresult⟩ := run_storeThenLoad
  obtain ⟨n, m', -, hsteps, hatRet, hreturned⟩ := @compile_aarch64_exact debug _ _ _
    decode_storeThenLoad hout _ _ _ 5 s hrun hexit (exactRun_storeThenLoad _) .withBuffer rfl rfl
    rfl (fun _ => rfl) hapart .idle
  exact ⟨n, m', hsteps, hatRet, hreturned.result.trans hresult⟩

end NVMirror
