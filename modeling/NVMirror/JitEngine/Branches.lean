import NVMirror.JitAarch64.Program
import NVMirror.JitEngine.Comparison
import NVMirror.JitRiscv.Branch
import NVMirror.JitRiscv.Constants

/-!
# Conditional branches

Where the words of a `Branch` node go.

* `Branches cond c taken`: the words of the node, patched with any displacement, go there if `taken`
  and to the next word otherwise.
* `branches_iff`: on AArch64 the flags of a comparison decide, on RISC-V a comparison of the
  registers as they are.
* `branch64_iff`, `branch32_iff`: when that is the jump of the interpreter, or the comparison of the
  lower halves.
-/

namespace NVMirror

open Rust

/-- Words are appended in one way. -/
theorem Emitter.append_inj {κ : Type} {e : Emitter κ} {ws ws' : List U32}
    {branch branch' : Option (BasicBlockId × κ)} (h : e.append ws branch = e.append ws' branch') :
    ws = ws' :=
  ofWords_injective (List.append_cancel_left (congrArg Emitter.buf h))

/-- A register or a constant as an operand. -/
def operandOf : BitVec 5 ⊕ I64 → Operand
  | .inl s => .reg (physOf s)
  | .inr v => .imm v

/-- Branches by two words are told from falling through. -/
theorem eq_of_displacement {pc : ℤ} {taken taken' : Bool}
    (h : (pc + if taken then 4 * 2 else 4) = pc + if taken' then 4 * 2 else 4) :
    taken = taken' := by
  cases taken <;> cases taken' <;> simp at h ⊢

/-! ### AArch64 -/

namespace Aarch64

/-- **The words of the branch** go to its target if `taken`, and to the next word otherwise.
Besides the flags, only `X9` changes. -/
def Branches (cond : BranchCond) (c : Cpu) (taken : Bool) : Prop :=
  ∃ (pre : List U32) (w : U32) (c' : Cpu),
    (∀ e target, emitBranchNode e cond target = e.append (pre ++ [w]) (some (target, true))) ∧
      SameOutside {9} c c' ∧
      ∀ (d : ℤ) (f : U32 → U32), patch true (4 * d) = some f → ∀ (code : List U8) (pc : ℤ),
        CodeAt code pc (pre ++ [f w]) →
          steps (step code) ⟨c, pc⟩ (pre.length + 1) =
            .ok ⟨c', pc + 4 * pre.length + if taken then 4 * d else 4⟩

/-- The flags of the comparison decide. -/
theorem branches_iff {cond : BranchCond} {l : Reg} (hlhs : cond.lhs = physOf l) (hl : l ≠ 9)
    (hrhs : ∀ p, cond.rhs = .reg p → ∃ s : Reg, p = physOf s) (c : Cpu) (taken : Bool) :
    Branches cond c taken ↔ taken = conditionHolds ((jmpopToConditionCode cond.op).setWidth 4)
      (compareFlags (!cond.is32bit) (regOrZero c l) (operandOrZero c cond.rhs)) := by
  obtain ⟨c', hline, hsame, hflags⟩ := compare_line hlhs hl hrhs c
  have hemit : ∀ e target, emitBranchNode e cond target =
      e.append (compareWords cond ++ [bCond (jmpopToConditionCode cond.op) 0])
        (some (target, true)) := by
    intro e target
    rw [emitBranchNode_eq, branchWords_eq]
  -- what the words do, whatever the displacement
  have hsteps : ∀ (d : ℤ) (f : U32 → U32), patch true (4 * d) = some f →
      ∀ (code : List U8) (pc : ℤ),
        CodeAt code pc (compareWords cond ++ [f (bCond (jmpopToConditionCode cond.op) 0)]) →
          steps (step code) ⟨c, pc⟩ ((compareWords cond).length + 1) =
            .ok ⟨c', pc + 4 * (compareWords cond).length +
              if conditionHolds ((jmpopToConditionCode cond.op).setWidth 4) c'.flags then 4 * d
              else 4⟩ := by
    intro d f hf code pc hcode
    obtain ⟨imm19, hdecode, rfl⟩ := patch_conditional cond.op hf
    exact steps_line_branch hline hdecode hcode
  rw [← hflags]
  constructor
  · rintro ⟨pre, w, c'', hemit', -, hbranch⟩
    have hwords : pre ++ [w] = compareWords cond ++ [bCond (jmpopToConditionCode cond.op) 0] :=
      Emitter.append_inj ((hemit' .new ⟨0⟩).symm.trans (hemit .new ⟨0⟩))
    obtain ⟨rfl, hw⟩ := List.append_inj' hwords rfl
    cases hw
    -- a target other than the next word
    obtain ⟨f, hf⟩ : ∃ f, patch true (4 * 2) = some f := ⟨_, rfl⟩
    have h := (hbranch 2 f hf _ 0 (codeAt_ofWords _)).symm.trans
      (hsteps 2 f hf _ 0 (codeAt_ofWords _))
    exact eq_of_displacement (congrArg Machine.pc (Except.ok.inj h))
  · rintro rfl
    exact ⟨_, _, c', hemit, hsame, hsteps⟩

end Aarch64

/-! ### RISC-V -/

namespace Riscv

variable [Profile]

/-- **The words of the branch** go to its target if `taken`, and to the next word otherwise.  Only
the scratch register changes. -/
def Branches (cond : BranchCond) (c : Cpu) (taken : Bool) : Prop :=
  ∃ (pre : List U32) (w : U32) (c' : Cpu),
    (∀ e target, emitBranchNode (ε := RiscVEmitError) e cond target =
      .ok (e.append (pre ++ [w]) (some (target, .branch)))) ∧
      SameOutside {23} c c' ∧
      ∀ (env : Env) (d : ℤ) (f : U32 → U32), patch .branch (4 * d) = some f →
        ∀ (code : List U8) (pc : ℤ), CodeAt code pc (pre ++ [f w]) →
          steps (step env code) ⟨c, pc⟩ (pre.length + 1) =
            .ok ⟨c', pc + 4 * pre.length + if taken then 4 * d else 4⟩

/-- An operand that fits into the field of an instruction. -/
def operandGet (c : Cpu) : Reg ⊕ I64 → U64
  | .inl s => c.get s
  | .inr v => v

/-- The words of a branch whose operand is a register or a constant that can be loaded. -/
theorem branch_line {op : JmpOp} (hop : op ≠ .ja) {l : Reg} (hl : l ≠ 23) (src : Reg ⊕ I64)
    (hsrc : ∀ v, src = .inr v → loaded 23 v = v) (is32bit : Bool) (c : Cpu) :
    ∃ (pre : List U32) (funct3 : BitVec 3) (cond : Compare) (s1 s2 : Reg) (c' : Cpu),
      (∀ e target, emitBranchNode (ε := RiscVEmitError) e ⟨op, physOf l, operandOf src, is32bit⟩
        target = .ok (e.append (pre ++ [unpatched funct3 s1 s2]) (some (target, .branch)))) ∧
        compareOf funct3 = some cond ∧ Line pre c c' ∧ SameOutside {23} c c' ∧
          cond.holds (c'.get s1) (c'.get s2) = op.holds (c.get l) (operandGet c src) := by
  have htmp : {r | r = 23 ∧ op = .jset} ⊆ ({23} : Set Reg) := by
    rintro r ⟨rfl, -⟩
    rfl
  cases src with
  | inl s =>
    obtain ⟨pre, funct3, cond, s1, s2, hws, hcond, -, hline⟩ := compareWords_eq hop l s
    obtain ⟨c', hline, hsame, hholds⟩ := hline c
    refine ⟨pre, funct3, cond, s1, s2, c', fun e target => ?_, hcond, hline, hsame.mono htmp,
      hholds⟩
    rw [← hws]
    exact emitBranchNode_reg e op (physOf l) (physOf s) is32bit target
  | inr v =>
    obtain ⟨ws, hemit, hwrites⟩ := writes_loadImm64 (ε := RiscVEmitError) (d := 23) (by decide) v
    have hloaded := hwrites c
    rw [hsrc v rfl, Set.union_self] at hloaded
    obtain ⟨c₁, hload, hval, hsame⟩ := hloaded
    obtain ⟨pre, funct3, cond, s1, s2, hws, hcond, -, hline⟩ := compareWords_eq hop l 23
    obtain ⟨c', hline, hsame', hholds⟩ := hline c₁
    have hlhs : c₁.get l = c.get l := by rw [Cpu.get, Cpu.get, hsame.x l hl]
    have hrhs : c₁.get 23 = v := (c₁.get_of_ne (by decide)).trans hval
    rw [hlhs, hrhs] at hholds
    refine ⟨ws ++ pre, funct3, cond, s1, s2, c', fun e target => ?_, hcond, hload.append hline,
      hsame.trans (hsame'.mono htmp), hholds⟩
    rw [List.append_assoc, ← hws]
    exact emitBranchNode_imm e op (physOf l) hemit is32bit target

/-- A comparison of the registers decides, also for a branch on 32 bits. -/
theorem branches_iff {op : JmpOp} (hop : op ≠ .ja) {l : Reg} (hl : l ≠ 23) (src : Reg ⊕ I64)
    (hsrc : ∀ v, src = .inr v → IsShort v) (is32bit : Bool) (c : Cpu) (taken : Bool) :
    Branches ⟨op, physOf l, operandOf src, is32bit⟩ c taken ↔
      taken = op.holds (c.get l) (operandGet c src) := by
  obtain ⟨pre, funct3, cond, s1, s2, c', hemit, hcond, hline, hsame, hholds⟩ :=
    branch_line hop hl src (fun v hv => if_pos (hsrc v hv)) is32bit c
  have hsteps : ∀ (env : Env) (d : ℤ) (f : U32 → U32), patch .branch (4 * d) = some f →
      ∀ (code : List U8) (pc : ℤ), CodeAt code pc (pre ++ [f (unpatched funct3 s1 s2)]) →
        steps (step env code) ⟨c, pc⟩ (pre.length + 1) =
          .ok ⟨c', pc + 4 * pre.length +
            if op.holds (c.get l) (operandGet c src) then 4 * d else 4⟩ := by
    intro env d f hf code pc hcode
    obtain ⟨imm12, hdecode, hd⟩ := patch_branch hf hcond s1 s2
    rw [← hd, ← hholds]
    exact steps_line_branch env hline hdecode hcode
  constructor
  · rintro ⟨pre', w, c'', hemit', -, hbranch⟩
    have hwords : pre' ++ [w] = pre ++ [unpatched funct3 s1 s2] :=
      Emitter.append_inj (Except.ok.inj ((hemit' .new ⟨0⟩).symm.trans (hemit .new ⟨0⟩)))
    obtain ⟨rfl, hw⟩ := List.append_inj' hwords rfl
    cases hw
    obtain ⟨f, hf⟩ : ∃ f, patch .branch (4 * 2) = some f := ⟨_, rfl⟩
    have h := (hbranch .idle 2 f hf _ 0 (codeAt_ofWords _)).symm.trans
      (hsteps .idle 2 f hf _ 0 (codeAt_ofWords _))
    exact eq_of_displacement (congrArg Machine.pc (Except.ok.inj h))
  · rintro rfl
    exact ⟨pre, _, c', hemit, hsame, hsteps⟩

end Riscv

/-! ### Agreement -/

/-- A bit test has the result of `≠`. -/
def BitTestIsNe {w : ℕ} (a b : BitVec w) : Prop := (a = 0 ∧ b = 0) ∨ (a ≠ b ∧ a &&& b ≠ 0)

instance {w : ℕ} (a b : BitVec w) : Decidable (BitTestIsNe a b) :=
  inferInstanceAs (Decidable (_ ∨ _))

theorem holds_jset_eq_iff {w : ℕ} (a b : BitVec w) :
    JmpOp.jset.holds a b = JmpOp.jne.holds a b ↔ BitTestIsNe a b := by
  unfold BitTestIsNe
  simp only [JmpOp.holds, ne_eq, decide_eq_decide]
  by_cases hab : a = b
  · subst hab
    rw [BitVec.and_self]
    tauto
  · have hzero : ¬ (a = 0 ∧ b = 0) := fun h => hab (h.1.trans h.2.symm)
    tauto

namespace Aarch64

/-- **The flags of a comparison** decide as the comparison does; a bit test is taken for `≠`. -/
theorem holds_eq_flags_iff (op : JmpOp) (sf : Bool) (a b : U64) :
    op.holds (a.setWidth (width sf)) (b.setWidth (width sf)) =
        conditionHolds ((jmpopToConditionCode op).setWidth 4) (compareFlags sf a b) ↔
      (op = .jset → BitTestIsNe (a.setWidth (width sf)) (b.setWidth (width sf))) := by
  by_cases hop : op = .jset
  · subst hop
    have hne := @conditionHolds_compareFlags .jne (by decide) sf a b
    have hcode : jmpopToConditionCode .jset = jmpopToConditionCode .jne := rfl
    rw [hcode, hne, holds_jset_eq_iff]
    simp only [forall_const]
  · rw [conditionHolds_compareFlags hop]
    exact ⟨fun _ h => absurd h hop, fun _ => rfl⟩

/-- **Branches on 64 bits** jump as the interpreter does, but for the bit test: `CMP` and `B.NE`
take it for `≠`. -/
theorem branch64_iff (op : JmpOp) {l : Reg} (hl : l ≠ 9) (src : Reg ⊕ I64) (c : Cpu) :
    let a := regOrZero c l
    let b := src.elim (regOrZero c) id
    Branches ⟨op, physOf l, operandOf src, false⟩ c (evalJmp op a b) ↔
      (op = .jset → BitTestIsNe a b) := by
  intro a b
  have hrhs : ∀ p, operandOf src = .reg p → ∃ s : Reg, p = physOf s := by
    rintro p hp
    cases src with
    | inl s => exact ⟨s, (Operand.reg.inj hp).symm⟩
    | inr v => cases hp
  have hb : operandOrZero c (operandOf src) = b := by
    cases src with
    | inl s => exact operandOrZero_physOf c s
    | inr v => rfl
  have hagree := holds_eq_flags_iff op true a b
  change op.holds (a.setWidth 64) (b.setWidth 64) = _ ↔
    (_ → BitTestIsNe (a.setWidth 64) (b.setWidth 64)) at hagree
  rw [BitVec.setWidth_eq, BitVec.setWidth_eq] at hagree
  rw [branches_iff rfl hl hrhs, hb, evalJmp_eq]
  exact hagree

/-- `X0` holds 1, the other registers hold 2. -/
def oneTwo : Cpu := ⟨fun r => if r = 0 then 1 else 2, ⟨false, false, false, false⟩, fun _ => 0⟩

/-- A comparison of 1 and 2. -/
theorem branch64_oneTwo_jlt :
    (0 : Reg) ≠ 9 ∧ Branches ⟨.jlt, physOf 0, operandOf (.inl 1), false⟩ oneTwo
      (evalJmp .jlt (oneTwo.x 0) (oneTwo.x 1)) :=
  ⟨by decide, (branch64_iff .jlt (l := 0) (by decide) (.inl 1) oneTwo).2 fun h => by cases h⟩

/-- A bit test of 1 and 2 is taken. -/
theorem branch64_oneTwo :
    ¬ Branches ⟨.jset, physOf 0, .reg (physOf 1), false⟩ oneTwo
      (evalJmp .jset (oneTwo.x 0) (oneTwo.x 1)) := by
  intro h
  rw [branches_iff rfl (by decide) (fun p hp => ⟨1, (Operand.reg.inj hp).symm⟩)] at h
  exact absurd h (by decide)

end Aarch64

/-! ### Branches on 32 bits -/

/-- **The interpreter** goes to the target if `taken`, and to the next instruction otherwise. -/
def InterpreterBranches [Profile] (stackPtr : U64) (s : InterpreterState) (op : JmpOp)
    (dst : BpfReg) (src : Source) (taken : Bool) : Prop :=
  ∀ (pc : ℕ) (off : I16), stepInsn stackPtr { s with pc } (.jmpCond32 op dst src off) =
    branch { s with pc } taken off

theorem branch_injective [Profile] (s : InterpreterState) {taken taken' : Bool}
    (h : branch { s with pc := 0 } taken 1 = branch { s with pc := 0 } taken' 1) :
    taken = taken' := by
  have hjump : jumpPc (ε := Empty) 0 1 = .ok 2 :=
    jumpPc_eq (rfl : IsTarget 0 1 2) (by decide) (by decide)
  have htrue : branch { s with pc := 0 } true 1 = .ok ({ s with pc := 2 }, true) := by
    unfold branch
    rw [if_pos rfl, hjump]
    rfl
  have hfalse : branch { s with pc := 0 } false 1 = .ok ({ s with pc := 1 }, true) := rfl
  have hne : branch { s with pc := 0 } true 1 ≠ branch { s with pc := 0 } false 1 := by
    rw [htrue, hfalse]
    intro heq
    have hpc : 2 = 1 := congrArg (fun x => x.1.pc) (Except.ok.inj heq)
    omega
  cases taken <;> cases taken'
  · rfl
  · exact absurd h.symm hne
  · exact absurd h hne
  · rfl

variable [Profile]

theorem interpreterBranches_iff (stackPtr : U64) (s : InterpreterState) (op : JmpOp) (dst : BpfReg)
    (src : Source) (taken : Bool) : InterpreterBranches stackPtr s op dst src taken ↔
      taken = evalJmp op ((low (s.regs dst)).setWidth 64)
        ((low (resolveSource s.regs src)).setWidth 64) := by
  constructor
  · intro h
    exact (branch_injective s (h 0 1)).symm
  · rintro rfl pc off
    rfl

/-- **Branches on 32 bits.**  The interpreter extends both halves with zeros, so signed comparisons
need halves of one sign; AArch64 takes a bit test for `≠`; RISC-V compares whole registers. -/
theorem branch32_iff {op : JmpOp} (hop : op ≠ .ja) (dst : BpfReg) (src : Source) :
    (∀ (stackPtr : U64) (s : InterpreterState),
      let a := low (s.regs dst)
      let b := low (resolveSource s.regs src)
      InterpreterBranches stackPtr s op dst src (op.holds a b) ↔
        (op.isSigned = true → a.msb = b.msb)) ∧
    (∀ c : Aarch64.Cpu,
      let regs r := c.x (Aarch64.xreg r)
      let a := low (regs dst)
      let b := low (resolveSource regs src)
      Aarch64.Branches ⟨op, aarch64Regmap.phys dst, aarch64Regmap.translateSource src, true⟩ c
          (op.holds a b) ↔ (op = .jset → BitTestIsNe a b)) ∧
    ((∀ v, src = .imm v → Riscv.IsShort v) → ∀ c : Riscv.Cpu,
      let regs r := c.x (Riscv.xreg r)
      let a := regs dst
      let b := resolveSource regs src
      Riscv.Branches ⟨op, riscv64Regmap.phys dst, riscv64Regmap.translateSource src, true⟩ c
          (op.holds (low a) (low b)) ↔ LowDecides op a b) := by
  refine ⟨fun stackPtr s => ?_, fun c => ?_, fun hsrc c => ?_⟩
  · dsimp only
    rw [interpreterBranches_iff, eq_comm, evalJmp_zeroExtend]
  · intro regs a b
    obtain ⟨h9, -, -, -, h31⟩ := Aarch64.xreg_free dst
    have hfree := Aarch64.freeOperand_translateSource src
    have hlhs : Aarch64.regOrZero c (Aarch64.xreg dst) = regs dst := if_neg h31
    have hrhs : Aarch64.operandVal c (aarch64Regmap.translateSource src) =
        resolveSource regs src := by
      cases src with
      | imm v => rfl
      | reg r =>
        rw [RegMap.translateSource, Aarch64.phys_eq, Aarch64.operandVal_physOf]
        rfl
    rw [Aarch64.branches_iff (Aarch64.phys_eq dst) h9 hfree.reg, hlhs,
      Aarch64.operandOrZero_eq hfree, hrhs]
    exact Aarch64.holds_eq_flags_iff op false (regs dst) (resolveSource regs src)
  · intro regs a b
    have hlhs : c.get (Riscv.xreg dst) = a := c.get_of_ne (Riscv.xreg_ne_zero dst)
    obtain ⟨operand, hoperand, hval, hshort⟩ : ∃ operand,
        riscv64Regmap.translateSource src = operandOf operand ∧
          Riscv.operandGet c operand = b ∧ ∀ v, operand = .inr v → Riscv.IsShort v := by
      cases src with
      | imm v => exact ⟨.inr v, rfl, rfl, fun v' hv => by cases hv; exact hsrc v rfl⟩
      | reg r =>
        exact ⟨.inl (Riscv.xreg r), congrArg Operand.reg (Riscv.phys_eq r),
          c.get_of_ne (Riscv.xreg_ne_zero r), fun v hv => by cases hv⟩
    rw [hoperand, Riscv.phys_eq, Riscv.branches_iff hop (Riscv.xreg_ne_scratch dst) operand hshort,
      hlhs, hval, eq_comm]
    exact holds_low op a b

/-- `R1` holds 1, the other registers hold -1. -/
def oneMinusOne : InterpreterState :=
  { InterpreterState.new with regs := fun r => if r = BpfReg.r1 then 1 else -1 }

omit [Profile] in
/-- Comparisons of 1 with 1, on the three machines. -/
theorem branch32_iff_one_one :
    let cpu : Aarch64.Cpu := ⟨fun _ => 1, ⟨false, false, false, false⟩, fun _ => 0⟩
    let cpu' : Riscv.Cpu := ⟨fun _ => 1, fun _ => 0, none⟩
    @InterpreterBranches debug 0 oneMinusOne .jeq BpfReg.r1 (.imm 1) true ∧
      Aarch64.Branches ⟨.jeq, aarch64Regmap.phys BpfReg.r1, .imm 1, true⟩ cpu true ∧
      @Riscv.Branches debug ⟨.jeq, riscv64Regmap.phys BpfReg.r1, .imm 1, true⟩ cpu' true := by
  intro cpu cpu'
  obtain ⟨h1, h2, h3⟩ := @branch32_iff debug .jeq (by decide) BpfReg.r1 (.imm 1)
  refine ⟨(h1 0 oneMinusOne).2 (by decide), (h2 cpu).2 (fun h => by cases h), ?_⟩
  refine (h3 ?_ cpu').2 (by decide)
  intro v hv
  cases hv
  decide

omit [Profile] in
/-- The interpreter takes -1 for the greater one. -/
theorem branch32_oneMinusOne : ¬ @InterpreterBranches debug 0 oneMinusOne .jsgt BpfReg.r1
    (.reg BpfReg.r2) (JmpOp.jsgt.holds (1 : U32) (-1)) := by
  intro h
  rw [@interpreterBranches_iff debug] at h
  exact absurd h (by decide)

end NVMirror
