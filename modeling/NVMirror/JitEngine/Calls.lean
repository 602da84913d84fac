import NVMirror.JitEngine.StackAccess

/-!
# Helper calls of compiled code

A `Helper` is a function of the five registers in which the ABI passes integer arguments; it returns
in a register of the ABI, gives back the callee-saved registers, and may do anything else.

* `CallAgrees`: a helper got `R1` to `R5`, and afterwards `R0` is what it returned, and `R6` to
  `R10` are what they were.
* `call_agrees_iff`: on AArch64 this holds exactly if the helper leaves its result in `X7` too, the
  register of `R0`; on RISC-V, exactly if the registers of `R0` to `R5` all hold the same, since the
  first argument register is that of `R0`.
-/

namespace NVMirror

open Rust

/-! ### Helpers -/

/-- How functions are called: the registers of the arguments, that of the result, and those that
functions give back. -/
structure CallAbi where
  args : Fin 5 → BitVec 5
  result : BitVec 5
  saved : List (BitVec 5)

/-- A function of the argument registers, as a change of the state `σ`, whose registers are `x`. -/
structure Helper {σ : Type} (x : σ → BitVec 5 → U64) (abi : CallAbi) where
  fn : (Fin 5 → U64) → U64
  /-- From its first instruction to its return. -/
  run : σ → σ
  result (c : σ) : x (run c) abi.result = fn fun i => x c (abi.args i)
  saved (c : σ) : ∀ r ∈ abi.saved, x (run c) r = x c r

/-- `R1` to `R5`. -/
def argReg : Fin 5 → BpfReg := ![BpfReg.r1, BpfReg.r2, BpfReg.r3, BpfReg.r4, BpfReg.r5]

/-- **The calling convention**, for a helper called in the state `before` and entered in the state
`entry`, when the code continues in the state `after`; `reg` is the register of an eBPF register. -/
structure CallAgrees {σ : Type} {x : σ → BitVec 5 → U64} {abi : CallAbi} (reg : BpfReg → BitVec 5)
    (helper : Helper x abi) (before entry after : σ) : Prop where
  args : ∀ i, x entry (abi.args i) = x before (reg (argReg i))
  result : x after (reg BpfReg.r0) = helper.fn fun i => x entry (abi.args i)
  kept : ∀ r : BpfReg, 6 ≤ r.val → x after (reg r) = x before (reg r)

namespace Aarch64

/-- Arguments in `X0` to `X4`, the result in `X0`. -/
def callAbi : CallAbi := ⟨![0, 1, 2, 3, 4], 0, Full.calleeSaved⟩

abbrev CallHelper := Helper Cpu.x callAbi

/-- The state at the first instruction of a function called from `m`. -/
def Full.called (env : Full.Env) (m : Machine) : Cpu :=
  m.set 30 (env.base + BitVec.ofInt 64 (m.pc + 4))

variable {ir : IrProgram} {W : IrNode → List U32} {ws : List U32} {limit : ℕ} {j : ℕ} {funcId : U32}

/-- **A call** enters the function at the address in the scratch register. -/
theorem Full.step_call [Profile] (hem : Emission emitNode ir.code W branchOf limit)
    (himg : Image W branchOf patch ir ws) (hj : ir.code[j]? = some (.call funcId)) (env : Full.Env)
    {m : Machine} (hpc : m.pc = nodeOffset emitNode ir.code j) :
    Full.step env (ofWords ws) m = .ok ⟨env.call (m.x 9) (Full.called env m), m.pc + 4⟩ ∧
      m.pc + 4 = nodeOffset emitNode ir.code (j + 1) := by
  have hW : W (.call funcId) = [blr 9] :=
    words_eq hem hj fun e => congrArg Except.ok (e.emit32_eq _)
  have hpos : m.pc = 4 * (wordPos W ir.code j : ℤ) := by
    rw [hpc, nodeOffset_eq hem]
    push_cast
    rfl
  have hcode := codeAt_node himg hj (List.append_nil (W (.call funcId))).symm (Or.inl rfl)
  rw [hW] at hcode
  have hfetch : fetchU32 (ofWords ws) m.pc = some (blr 9) := by
    have h0 := hcode 0 (blr 9) rfl
    rw [Nat.cast_zero, mul_zero, add_zero, ← hpos] at h0
    exact h0
  constructor
  · have hstep := Full.step_of_fetch env hfetch Full.decode_blr (c := m.toCpu) rfl
    have h9 : m.get true 9 = m.x 9 := m.get_true (by decide)
    dsimp only [Full.Instr.exec, Full.Instr.displacement] at hstep
    rw [h9] at hstep
    exact hstep
  · rw [hpos, nodeOffset_eq hem, wordPos_succ hj, hW]
    push_cast
    rfl

/-- The registers of `R1` to `R5` are those of the arguments, the register of `R0` is not that of
the result. -/
theorem callAgrees_iff (helper : CallHelper) (env : Full.Env) (m : Machine) :
    CallAgrees xreg helper m.toCpu (Full.called env m) (helper.run (Full.called env m)) ↔
      (helper.run (Full.called env m)).x 7 = (helper.run (Full.called env m)).x 0 := by
  have hentry : ∀ r : Reg, r ≠ 30 → (Full.called env m).x r = m.x r := fun r hr =>
    m.set_x_of_ne _ hr
  have hresult := helper.result (Full.called env m)
  have hargs : ∀ i, xreg (argReg i) = callAbi.args i ∧ callAbi.args i ≠ 30 := by decide
  have hkept : ∀ r : BpfReg, 6 ≤ r.val →
      xreg r ∈ Full.calleeSaved ∧ xreg r ≠ 30 := by decide
  constructor
  · intro h
    exact h.result.trans hresult.symm
  · intro h
    refine ⟨fun i => ?_, h.trans hresult, fun r hr => ?_⟩
    · rw [hentry _ (hargs i).2, (hargs i).1]
    · rw [helper.saved _ _ (hkept r hr).1, hentry _ (hkept r hr).2]

end Aarch64

namespace Riscv

/-- Arguments in `a0` to `a4`, the result in `a0`. -/
def callAbi : CallAbi := ⟨![10, 11, 12, 13, 14], 10, calleeSaved⟩

abbrev CallHelper := Helper Cpu.x callAbi

/-- The state at the first instruction of a function called from `m`. -/
def called (env : Env) (m : Machine) : Cpu := m.set 1 (env.base + BitVec.ofInt 64 (m.pc + 4))

variable {ir : IrProgram} {W : IrNode → List U32} {ws : List U32} {limit : ℕ} {j : ℕ} {funcId : U32}

/-- **A call** enters the function at the address in the scratch register. -/
theorem step_call [Profile] (hem : Emission emitNode ir.code W branchOf limit)
    (himg : Image W branchOf patch ir ws) (hj : ir.code[j]? = some (.call funcId)) (env : Env)
    {m : Machine} (hpc : m.pc = nodeOffset emitNode ir.code j) :
    step env (ofWords ws) m = .ok ⟨env.call (m.x 23) (called env m), m.pc + 4⟩ ∧
      m.pc + 4 = nodeOffset emitNode ir.code (j + 1) := by
  have hW : W (.call funcId) = [jalr 1 23 0] := words_eq hem hj fun e _ =>
    congrArg Except.ok (e.emit32_eq _)
  have hpos : m.pc = 4 * (wordPos W ir.code j : ℤ) := by
    rw [hpc, nodeOffset_eq hem]
    push_cast
    rfl
  have hcode := codeAt_node himg hj (List.append_nil (W (.call funcId))).symm (Or.inl rfl)
  rw [hW, ← hpos] at hcode
  constructor
  · have hstep := step_of_fetch env hcode.head (decode_jalr 1 23 0) (c := m.toCpu) rfl
    have h23 : m.get 23 + (0 : BitVec 12).signExtend 64 = m.x 23 := by
      rw [m.get_of_ne (by decide)]
      exact BitVec.add_zero _
    have hcall : (Instr.jalr 1 23 0).exec env m.pc m.toCpu = env.call (m.x 23) (called env m) := by
      rw [← h23]
      rfl
    have hzero : (0 : U32).setWidth 12 = (0 : BitVec 12) := rfl
    rw [hzero, hcall] at hstep
    exact hstep
  · rw [hpos, nodeOffset_eq hem, wordPos_succ hj, hW]
    push_cast
    rfl

/-- The register of `R0` is that of the result and of the first argument. -/
theorem callAgrees_iff (helper : CallHelper) (env : Env) (m : Machine) :
    CallAgrees xreg helper m.toCpu (called env m) (helper.run (called env m)) ↔
      ∀ r ∈ ([11, 12, 13, 14, 15] : List Reg), m.x r = m.x 10 := by
  have hentry : ∀ r : Reg, r ≠ 1 → (called env m).x r = m.x r := fun r hr => m.set_x_of_ne _ hr
  have hkept : ∀ r : BpfReg, 6 ≤ r.val →
      xreg r ∈ calleeSaved ∧ xreg r ≠ 1 := by decide
  have hargs : ∀ i, callAbi.args i ≠ 1 := by decide
  constructor
  · intro h
    -- every argument register holds what the next one holds
    have hstep : ∀ i, m.x (callAbi.args i) = m.x (xreg (argReg i)) := by
      intro i
      rw [← h.args i, hentry _ (hargs i)]
    have h0 : m.x 10 = m.x 11 := hstep 0
    have h1 : m.x 11 = m.x 12 := hstep 1
    have h2 : m.x 12 = m.x 13 := hstep 2
    have h3 : m.x 13 = m.x 14 := hstep 3
    have h4 : m.x 14 = m.x 15 := hstep 4
    intro r hr
    simp only [List.mem_cons, List.not_mem_nil, or_false] at hr
    rcases hr with rfl | rfl | rfl | rfl | rfl
    · rw [h0]
    · rw [h0, h1]
    · rw [h0, h1, h2]
    · rw [h0, h1, h2, h3]
    · rw [h0, h1, h2, h3, h4]
  · intro h
    have hsame : ∀ i, (callAbi.args i = 10 ∨ callAbi.args i ∈ ([11, 12, 13, 14, 15] : List Reg)) ∧
        xreg (argReg i) ∈ ([11, 12, 13, 14, 15] : List Reg) := by decide
    refine ⟨fun i => ?_, helper.result _, fun r hr => ?_⟩
    · rw [hentry _ (hargs i), h _ (hsame i).2]
      rcases (hsame i).1 with h10 | hmem
      · rw [h10]
      · exact h _ hmem
    · rw [helper.saved _ _ (hkept r hr).1, hentry _ (hkept r hr).2]

end Riscv

/-! ### Compiled programs -/

variable {insns : List Insn}

/-- **Calls of compiled programs**: which calls follow the calling convention, on both targets, for
every helper whose address is in the scratch register. -/
theorem call_agrees_iff [Profile] {raw : List RawInsn} (hdec : decodeProgram raw = .ok insns) :
    (∀ out, compile raw .aArch64 = .ok out → ∀ j funcId,
      out.ir.code[j]? = some (.call funcId) → ∀ (helper : Aarch64.CallHelper)
      (env : Aarch64.Full.Env) (m : Aarch64.Machine),
      m.pc = nodeOffset Aarch64.emitNode out.ir.code j → env.call (m.x 9) = helper.run →
      ∃ m', Aarch64.Full.step env out.code m = .ok m' ∧
        m'.pc = nodeOffset Aarch64.emitNode out.ir.code (j + 1) ∧
        (CallAgrees Aarch64.xreg helper m.toCpu (Aarch64.Full.called env m) m'.toCpu ↔
          (helper.run (Aarch64.Full.called env m)).x 7 =
            (helper.run (Aarch64.Full.called env m)).x 0)) ∧
    ∀ out, compile raw .riscV64 = .ok out → ∀ j funcId,
      out.ir.code[j]? = some (.call funcId) → ∀ (helper : Riscv.CallHelper) (env : Riscv.Env)
      (m : Riscv.Machine),
      m.pc = nodeOffset Riscv.emitNode out.ir.code j → env.call (m.x 23) = helper.run →
      ∃ m', Riscv.step env out.code m = .ok m' ∧
        m'.pc = nodeOffset Riscv.emitNode out.ir.code (j + 1) ∧
        (CallAgrees Riscv.xreg helper m.toCpu (Riscv.called env m) m'.toCpu ↔
          ∀ r ∈ ([11, 12, 13, 14, 15] : List Riscv.Reg), m.x r = m.x 10) := by
  constructor
  · intro out hout j funcId hj helper env m hpc hhelper
    obtain ⟨-, flags, pcToBb, nodes, W, ws, -, hem, hcode, himg⟩ := compile_aarch64_image hdec hout
    obtain ⟨hstep, hnext⟩ := Aarch64.Full.step_call hem himg hj env hpc
    rw [hhelper] at hstep
    rw [hcode]
    exact ⟨_, hstep, hnext, Aarch64.callAgrees_iff helper env m⟩
  · intro out hout j funcId hj helper env m hpc hhelper
    obtain ⟨-, -, flags, pcToBb, nodes, W, ws, -, hem, hcode, himg⟩ := compile_riscv_image hdec hout
    obtain ⟨hstep, hnext⟩ := Riscv.step_call hem himg hj env hpc
    rw [hhelper] at hstep
    rw [hcode]
    exact ⟨_, hstep, hnext, Riscv.callAgrees_iff helper env m⟩

/-! ### A call -/

/-- `call 1; exit`. -/
def callOne : List RawInsn := [⟨0x85, 0, 0, 1⟩, ⟨0x95, 0, 0, 0⟩]

/-- `callOne`, compiled for AArch64. -/
def callOneAarch64 : JitOutput where
  code := ofWords [0xA9BC7BFD, 0xAA1F03FD, 0xA90153F3, 0xA9025BF5, 0xF9001BF9, 0xD63F0120,
    0xA94153F3, 0xA9425BF5, 0xF9401BF9, 0xA8C47BFD, 0xAA0703E0, 0xD65F03C0]
  ir := ⟨[⟨⟨0⟩, [.prologue 64, .call 1, .epilogue 64, .ret]⟩], 64⟩
  numBlocks := 1

/-- `callOne`, compiled for RISC-V. -/
def callOneRiscv : JitOutput where
  code := ofWords [0xFC010113, 0x02113C23, 0x02813823, 0x03213423, 0x03313023, 0x01413C23,
    0x01513823, 0x01613423, 0x04010413, 0x000B80E7, 0x00813B03, 0x01013A83, 0x01813A03, 0x02013983,
    0x02813903, 0x03013403, 0x03813083, 0x04010113, 0x00008067]
  ir := ⟨[⟨⟨0⟩, [.prologue 64, .call 1, .epilogue 64, .ret]⟩], 64⟩
  numBlocks := 1

theorem decode_callOne : decodeProgram callOne = .ok [.call 1, .exit] := by
  decide +kernel

theorem compile_callOne : @compile debug callOne .aArch64 = .ok callOneAarch64 ∧
    @compile debug callOne .riscV64 = .ok callOneRiscv := by
  have h₁ : (@compile debug callOne .aArch64).toOption = some callOneAarch64 := by
    decide +kernel
  have h₂ : (@compile debug callOne .riscV64).toOption = some callOneRiscv := by
    decide +kernel
  exact ⟨ok_of_toOption h₁, ok_of_toOption h₂⟩

/-- The sum of the arguments. -/
def sumArgs (a : Fin 5 → U64) : U64 := a 0 + a 1 + a 2 + a 3 + a 4

/-- A helper that returns a function of its arguments in `X0`, and leaves something in `X7`. -/
def Aarch64.CallHelper.ofFn (fn left : (Fin 5 → U64) → U64) : Aarch64.CallHelper where
  fn := fn
  run c := (c.set 7 (left fun i => c.x (callAbi.args i))).set 0 (fn fun i => c.x (callAbi.args i))
  result c := Cpu.set_x_self _ _ (by decide)
  saved c r hr := by
    have hne : ∀ r ∈ Full.calleeSaved, r ≠ 0 ∧ r ≠ 7 := by decide
    obtain ⟨h0, h7⟩ := hne r hr
    rw [Cpu.set_x_of_ne _ _ h0, Cpu.set_x_of_ne _ _ h7]

/-- A helper that returns a function of its arguments in `a0`. -/
def Riscv.CallHelper.ofFn (fn : (Fin 5 → U64) → U64) : Riscv.CallHelper where
  fn := fn
  run c := c.set 10 (fn fun i => c.x (callAbi.args i))
  result c := Cpu.set_x_self _ _ (by decide)
  saved c r hr := by
    have hne : ∀ r ∈ calleeSaved, r ≠ 10 := by decide
    exact c.set_x_of_ne _ (hne r hr)

/-- Every function is the helper. -/
def Aarch64.CallHelper.env (helper : Aarch64.CallHelper) : Full.Env :=
  { Full.Env.idle with call := fun _ => helper.run }

def Riscv.CallHelper.env (helper : Riscv.CallHelper) : Env :=
  { Env.idle with call := fun _ => helper.run }

/-- The machine at the call of `callOne`: register `i` holds `i + 1`. -/
def Aarch64.Machine.atCall : Aarch64.Machine :=
  ⟨⟨fun r => r.setWidth 64 + 1, ⟨false, false, false, false⟩, fun _ => 0⟩, 20⟩

/-- Every register holds 3. -/
def Riscv.Machine.atCall : Riscv.Machine := ⟨⟨fun _ => 3, fun _ => 0, none⟩, 36⟩

/-- `call_agrees_iff` at the program `callOne` and the helper that adds its arguments: on AArch64
these are 1 to 5, and the sum is left in `X7` too; on RISC-V they are all 3. -/
theorem call_agrees_callOne :
    (∃ m', Aarch64.Full.step (Aarch64.CallHelper.ofFn sumArgs sumArgs).env callOneAarch64.code
        Aarch64.Machine.atCall = .ok m' ∧ m'.pc = 24 ∧ m'.x (Aarch64.xreg BpfReg.r0) = 15 ∧
      CallAgrees Aarch64.xreg (Aarch64.CallHelper.ofFn sumArgs sumArgs)
        Aarch64.Machine.atCall.toCpu (Aarch64.Full.called
          (Aarch64.CallHelper.ofFn sumArgs sumArgs).env Aarch64.Machine.atCall) m'.toCpu) ∧
    ∃ m', Riscv.step (Riscv.CallHelper.ofFn sumArgs).env callOneRiscv.code Riscv.Machine.atCall =
        .ok m' ∧ m'.pc = 40 ∧ m'.x (Riscv.xreg BpfReg.r0) = 15 ∧
      CallAgrees Riscv.xreg (Riscv.CallHelper.ofFn sumArgs) Riscv.Machine.atCall.toCpu
        (Riscv.called (Riscv.CallHelper.ofFn sumArgs).env Riscv.Machine.atCall) m'.toCpu := by
  constructor
  · obtain ⟨m', hstep, hpc, hiff⟩ := (@call_agrees_iff _ debug _ decode_callOne).1 _
      compile_callOne.1 1 1 rfl (Aarch64.CallHelper.ofFn sumArgs sumArgs)
      (Aarch64.CallHelper.ofFn sumArgs sumArgs).env Aarch64.Machine.atCall (by decide +kernel) rfl
    have hagrees := hiff.2 (by decide)
    exact ⟨m', hstep, hpc.trans (by decide +kernel), hagrees.result.trans (by decide), hagrees⟩
  · obtain ⟨m', hstep, hpc, hiff⟩ := (@call_agrees_iff _ debug _ decode_callOne).2 _
      compile_callOne.2 1 1 rfl (Riscv.CallHelper.ofFn sumArgs)
      (Riscv.CallHelper.ofFn sumArgs).env Riscv.Machine.atCall (by decide +kernel) rfl
    have hagrees := hiff.2 (by decide)
    exact ⟨m', hstep, hpc.trans (by decide +kernel), hagrees.result.trans (by decide), hagrees⟩

/-- **A result and an argument are lost.**  On AArch64 nothing moves the result, here 1, from `X0`
to the register of `R0`; on RISC-V nothing moves the arguments, so a helper that returns its first
argument, 5, returns what was in `R0`, which is 0. -/
theorem callOne_disagrees :
    (∃ insns, decodeProgram callOne = .ok insns ∧ verifyProgram insns = .ok 1) ∧
    (@compile debug callOne .aArch64 = .ok callOneAarch64 ∧
      ∃ (helper : Aarch64.CallHelper) (m m' : Aarch64.Machine), m.pc = 20 ∧
        Relation.ReflTransGen (fun m m' => Aarch64.Full.step helper.env callOneAarch64.code m =
          .ok m') (.entry 0x1000 0) m ∧
        Aarch64.Full.step helper.env callOneAarch64.code m = .ok m' ∧
        ¬ CallAgrees Aarch64.xreg helper m.toCpu (Aarch64.Full.called helper.env m) m'.toCpu) ∧
    @compile debug callOne .riscV64 = .ok callOneRiscv ∧
      ∃ (helper : Riscv.CallHelper) (m m' : Riscv.Machine), m.pc = 36 ∧
        Relation.ReflTransGen (fun m m' => Riscv.step helper.env callOneRiscv.code m = .ok m')
          ⟨(Riscv.Machine.entry 0x1000 0).set 11 5, 0⟩ m ∧
        Riscv.step helper.env callOneRiscv.code m = .ok m' ∧
        ¬ CallAgrees Riscv.xreg helper m.toCpu (Riscv.called helper.env m) m'.toCpu := by
  refine ⟨⟨_, decode_callOne, by decide +kernel⟩, ⟨compile_callOne.1, ?_⟩, compile_callOne.2, ?_⟩
  · let words : List U32 := [0xA9BC7BFD, 0xAA1F03FD, 0xA90153F3, 0xA9025BF5, 0xF9001BF9, 0xD63F0120,
      0xA94153F3, 0xA9425BF5, 0xF9401BF9, 0xA8C47BFD, 0xAA0703E0, 0xD65F03C0]
    obtain ⟨ws, hws, hline⟩ := @Aarch64.prologue_line debug Aarch64.AArch64EmitError 64 (by decide)
    have hwords : @Aarch64.emitPrologue Aarch64.AArch64EmitError debug 64 = .ok (words.take 5) := by
      decide
    cases hws.symm.trans hwords
    have hcode : CodeAt callOneAarch64.code 0 (words.take 5) :=
      codeAt_take words 5
    let helper := Aarch64.CallHelper.ofFn (fun _ => 1) (fun _ => 0)
    let c := Aarch64.afterPrologue 64 (Aarch64.Machine.entry 0x1000 0).toCpu
    have hrun : Relation.ReflTransGen
        (fun m m' => Aarch64.Full.step helper.env callOneAarch64.code m = .ok m')
        (.entry 0x1000 0) ⟨c, 20⟩ := Aarch64.Full.run_line (hline _) hcode fun _ _ _ h => h
    have hfetch : fetchU32 callOneAarch64.code 20 = some 0xD63F0120 := by decide
    have hdecode : Aarch64.Full.decode 0xD63F0120 = some (.blr 9) := by decide
    refine ⟨helper, ⟨c, 20⟩, _, rfl, hrun,
      Aarch64.Full.step_of_fetch helper.env hfetch hdecode rfl, ?_⟩
    intro h
    exact absurd h.result (by decide)
  · let words : List U32 := [0xFC010113, 0x02113C23, 0x02813823, 0x03213423, 0x03313023, 0x01413C23,
      0x01513823, 0x01613423, 0x04010413, 0x000B80E7, 0x00813B03, 0x01013A83, 0x01813A03,
      0x02013983, 0x02813903, 0x03013403, 0x03813083, 0x04010113, 0x00008067]
    let c₀ := (Riscv.Machine.entry 0x1000 0).set 11 5
    have hline := Riscv.prologue_line (f := 64) ⟨by decide, by decide, by decide⟩ (by decide) c₀
    have hwords : Riscv.prologueWords 64 = words.take 9 := by
      decide
    rw [hwords] at hline
    have hcode : CodeAt callOneRiscv.code 0 (words.take 9) := codeAt_take words 9
    let helper := Riscv.CallHelper.ofFn fun a => a 0
    let c := Riscv.afterPrologue 64 c₀
    have hrun : Relation.ReflTransGen
        (fun m m' => Riscv.step helper.env callOneRiscv.code m = .ok m') ⟨c₀, 0⟩ ⟨c, 36⟩ := hline.run hcode fun _ _ _ _ h => h
    have hfetch : fetchU32 callOneRiscv.code 36 = some 0x000B80E7 := by decide
    have hdecode : Riscv.decode 0x000B80E7 = some (.jalr 1 23 0) := by decide
    refine ⟨helper, ⟨c, 36⟩, _, rfl, hrun, Riscv.step_of_fetch helper.env hfetch hdecode rfl, ?_⟩
    intro h
    have h0 : c.x 10 = c.x 11 := h.args 0
    exact absurd h0 (by decide)

end NVMirror
