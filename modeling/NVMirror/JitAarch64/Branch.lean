import NVMirror.JitAarch64.Alu
import NVMirror.JitEngine.Comparison

/-!
# Branches on the machine

* `conditionHolds_eq`: the condition code of a jump, read from the flags of a comparison, decides
  the jump as the interpreter does.
* `compare_line`: the words before a conditional branch set these flags.
* `patch_conditional`, `patch_unconditional`: the patched words branch by the displacement they
  were patched with.
-/

namespace NVMirror.Aarch64

open Rust

/-! ### Conditions -/

/-- **Condition codes.**  A bit test cannot be read from the flags of a comparison. -/
theorem conditionHolds_eq {op : JmpOp} (hop : op ≠ .jset) {w : ℕ} {a b : BitVec w} {f : Flags}
    (hz : f.z = true ↔ a = b) (hc : f.c = true ↔ b.toNat ≤ a.toNat)
    (hs : f.n = f.v ↔ b.toInt ≤ a.toInt) :
    conditionHolds ((jmpopToConditionCode op).setWidth 4) f = op.holds a b := by
  have hnat : a = b ↔ a.toNat = b.toNat := BitVec.toNat_inj.symm
  have hint : a = b ↔ a.toInt = b.toInt := BitVec.toInt_inj.symm
  rcases f with ⟨n, z, c, v⟩
  dsimp only at hz hc hs
  have hcond : ∀ (cc : U8) (holds : Bool), jmpopToConditionCode op = cc →
      conditionHolds (cc.setWidth 4) ⟨n, z, c, v⟩ = holds → (holds = true ↔ op.holds a b = true) →
      conditionHolds ((jmpopToConditionCode op).setWidth 4) ⟨n, z, c, v⟩ = op.holds a b := by
    rintro cc holds rfl rfl hiff
    exact Bool.eq_iff_iff.2 hiff
  cases op with
  | jset => exact absurd rfl hop
  | ja => rfl
  | jeq => exact hcond ccEq z rfl rfl (by simpa [JmpOp.holds] using hz)
  | jne => exact hcond ccNe (!z) rfl rfl (by simpa [JmpOp.holds] using not_congr hz)
  | jge => exact hcond ccHs c rfl rfl (by simpa [JmpOp.holds] using hc)
  | jlt => exact hcond ccLo (!c) rfl rfl (by simpa [JmpOp.holds] using not_congr hc)
  | jgt =>
    refine hcond ccHi (c && !z) rfl rfl ?_
    simp only [JmpOp.holds, Bool.and_eq_true, Bool.not_eq_true', ← Bool.not_eq_true, hz, hc, hnat,
      decide_eq_true_eq]
    omega
  | jle =>
    refine hcond ccLs (!(c && !z)) rfl rfl ?_
    simp only [JmpOp.holds, Bool.not_and, Bool.or_eq_true, Bool.not_eq_true', ← Bool.not_eq_true,
      hz, hc, hnat, decide_eq_true_eq, Bool.not_not]
    omega
  | jsge =>
    refine hcond ccGe (n == v) rfl rfl ?_
    simp only [JmpOp.holds, beq_iff_eq, hs, decide_eq_true_eq]
  | jslt =>
    refine hcond ccLt (!(n == v)) rfl rfl ?_
    simp only [JmpOp.holds, Bool.not_eq_true', beq_eq_false_iff_ne, ne_eq, hs, decide_eq_true_eq]
    omega
  | jsgt =>
    refine hcond ccGt (n == v && !z) rfl rfl ?_
    simp only [JmpOp.holds, Bool.and_eq_true, beq_iff_eq, Bool.not_eq_true', ← Bool.not_eq_true,
      hz, hs, hint, decide_eq_true_eq]
    omega
  | jsle =>
    refine hcond ccLe (!(n == v && !z)) rfl rfl ?_
    simp only [JmpOp.holds, Bool.not_and, Bool.or_eq_true, Bool.not_eq_true', ← Bool.not_eq_true,
      beq_iff_eq, hz, hs, hint, decide_eq_true_eq, Bool.not_not]
    omega

/-! ### Comparisons -/

/-- The words of a conditional branch before the branch itself. -/
def compareWords (cond : BranchCond) : List U32 :=
  let cmp := if cond.is32bit then cmpWReg else cmpXReg
  match cond.rhs with
  | .reg r => [cmp cond.lhs.num r.num]
  | .imm v => emitLoadImm64 tmp v ++ [cmp cond.lhs.num tmp.num]

theorem branchWords_eq (cond : BranchCond) :
    branchWords cond = compareWords cond ++ [bCond (jmpopToConditionCode cond.op) 0] := by
  unfold branchWords compareWords
  cases cond.rhs with
  | reg r => rfl
  | imm v =>
    dsimp only
    rw [List.append_assoc]
    rfl

/-- The flags of a comparison of two values. -/
def compareFlags (sf : Bool) (a b : U64) : Flags :=
  (addWithCarry (a.setWidth (width sf)) (~~~(b.setWidth (width sf))) true).2

/-- A register, 31 being the zero register. -/
def regOrZero (c : Cpu) (r : Reg) : U64 := if r = 31 then 0 else c.x r

/-- An operand of a comparison. -/
def operandOrZero (c : Cpu) : Operand → U64
  | .imm v => v
  | .reg p => regOrZero c (p.num.setWidth 5)

theorem operandOrZero_physOf (c : Cpu) (s : Reg) :
    operandOrZero c (.reg (physOf s)) = regOrZero c s := by
  have hnum : (s.setWidth 8).setWidth 5 = s :=
    (BitVec.setWidth_setWidth_of_le s (by decide)).trans (BitVec.setWidth_eq s)
  exact congrArg (regOrZero c) hnum

/-- Registers that hold a value. -/
theorem operandOrZero_eq {rhs : Operand} (h : FreeOperand rhs) (c : Cpu) :
    operandOrZero c rhs = operandVal c rhs := by
  cases rhs with
  | imm v => rfl
  | reg p =>
    obtain ⟨s, -, -, hs, rfl⟩ := h
    rw [operandOrZero_physOf, operandVal_physOf, regOrZero, if_neg hs]

/-- `CMP` of two registers. -/
theorem cmp_line (sf : Bool) (l s : Reg) (c : Cpu) :
    Line [rrr (opcode sf 0x6B000000) 31 (l.setWidth 8) (s.setWidth 8)] c
      { c with flags := compareFlags sf (regOrZero c l) (regOrZero c s) } := by
  have hop : IsData (opcode sf 0x6B000000) .subs sf := by cases sf <;> decide
  exact Line.word (decode_rrr hop 31 l s) rfl c

/-- **Comparisons.**  Besides the flags, only `X9` changes. -/
theorem compare_line {cond : BranchCond} {l : Reg} (hlhs : cond.lhs = physOf l) (hl9 : l ≠ 9)
    (hrhs : ∀ p, cond.rhs = .reg p → ∃ s : Reg, p = physOf s) (c : Cpu) :
    ∃ c', Line (compareWords cond) c c' ∧ SameOutside {9} c c' ∧
      c'.flags = compareFlags (!cond.is32bit) (regOrZero c l) (operandOrZero c cond.rhs) := by
  rcases cond with ⟨op, lhs, rhs, is32bit⟩
  dsimp only at hlhs hrhs ⊢
  subst hlhs
  have hcmp : ∀ s : Reg, (if is32bit then cmpWReg else cmpXReg) (physOf l).num (physOf s).num =
      rrr (opcode (!is32bit) 0x6B000000) 31 (l.setWidth 8) (s.setWidth 8) := by
    intro s
    cases is32bit <;> rfl
  cases rhs with
  | reg p =>
    obtain ⟨s, rfl⟩ := hrhs p rfl
    have hline := cmp_line (!is32bit) l s c
    rw [operandOrZero_physOf]
    rw [← hcmp] at hline
    exact ⟨_, hline, ⟨fun _ _ => rfl, rfl⟩, rfl⟩
  | imm v =>
    obtain ⟨c₁, hload, hx9, hsame⟩ := writes_loadImm64 (d := 9) (by decide) v c
    have hline := cmp_line (!is32bit) l 9 c₁
    have hl : regOrZero c₁ l = regOrZero c l := by rw [regOrZero, regOrZero, hsame.x l hl9]
    have h9 : regOrZero c₁ 9 = v := hx9
    rw [hl, h9, ← hcmp] at hline
    exact ⟨_, hload.append hline, ⟨hsame.x, hsame.mem⟩, rfl⟩

/-- The comparisons whose condition code says what the interpreter decides. -/
def CondSupported (cond : BranchCond) : Prop :=
  if cond.is32bit then cond.op ∈ [.jeq, .jne, .jgt, .jge, .jlt, .jle] else cond.op ≠ .jset

/-- **The flags of a comparison** decide every branch but the bit test. -/
theorem conditionHolds_compareFlags {op : JmpOp} (hop : op ≠ .jset) (sf : Bool) (a b : U64) :
    conditionHolds ((jmpopToConditionCode op).setWidth 4) (compareFlags sf a b) =
      op.holds (a.setWidth (width sf)) (b.setWidth (width sf)) := by
  have hwidth : width sf = 32 ∨ width sf = 64 := by cases sf <;> simp [width]
  obtain ⟨hz, hc⟩ := compare_flags (a.setWidth (width sf)) (b.setWidth (width sf))
  exact conditionHolds_eq hop hz hc (compare_flags_signed hwidth _ _)

/-- What the interpreter decides. -/
theorem CondSupported.holds_eq {cond : BranchCond} (h : CondSupported cond) (a b : U64) :
    cond.op.holds (a.setWidth (width !cond.is32bit)) (b.setWidth (width !cond.is32bit)) =
      if cond.is32bit then
        evalJmp cond.op ((a.setWidth 32).setWidth 64) ((b.setWidth 32).setWidth 64)
      else evalJmp cond.op a b := by
  rcases cond with ⟨op, lhs, rhs, is32bit⟩
  cases is32bit with
  | false =>
    have hid : ∀ v : U64, v.setWidth (width true) = v := fun v => BitVec.setWidth_eq v
    exact (congrArg₂ op.holds (hid a) (hid b)).trans (evalJmp_eq op a b).symm
  | true =>
    have hop : op ∈ [JmpOp.jeq, .jne, .jgt, .jge, .jlt, .jle] := h
    refine ((evalJmp_zeroExtend op (a.setWidth 32) (b.setWidth 32)).2 fun hs => ?_).symm
    exfalso
    fin_cases hop <;> cases hs

theorem CondSupported.ne_jset {cond : BranchCond} (h : CondSupported cond) : cond.op ≠ .jset := by
  rcases cond with ⟨op, lhs, rhs, is32bit⟩
  cases is32bit with
  | false => exact h
  | true =>
    rintro rfl
    simp [CondSupported] at h

/-! ### Patched words -/

theorem toInt_setWidth_ofInt {k : ℕ} {i : ℤ} (hk : k < 32) (hk0 : 0 < k)
    (h : -2 ^ (k - 1) ≤ i ∧ i < 2 ^ (k - 1)) : ((BitVec.ofInt 32 i).setWidth k).toInt = i := by
  have hdvd : ((2 ^ k : ℕ) : ℤ) ∣ ((2 ^ 32 : ℕ) : ℤ) :=
    Int.natCast_dvd_natCast.2 (pow_dvd_pow 2 hk.le)
  have hnat : ((BitVec.ofInt 32 i).toNat : ℤ) = i % ((2 ^ 32 : ℕ) : ℤ) := by
    rw [BitVec.toNat_ofInt, Int.toNat_of_nonneg (Int.emod_nonneg i (by decide))]
  rw [BitVec.toInt_setWidth, hnat, ← Int.emod_bmod, Int.emod_emod_of_dvd i hdvd, Int.emod_bmod,
    ← BitVec.toInt_ofInt]
  exact BitVec.toInt_ofInt_eq_self hk0 h.1 h.2

/-- **A patched `B.cond`.** -/
theorem patch_conditional (op : JmpOp) {k : ℤ} {f : U32 → U32} (h : patch true (4 * k) = some f) :
    ∃ imm19, decode (f (bCond (jmpopToConditionCode op) 0)) =
      some (.bCond ((jmpopToConditionCode op).setWidth 4) imm19) ∧ imm19.toInt = k := by
  have htdiv : (4 * k).tdiv 4 = k := Int.mul_tdiv_cancel_left k (by decide)
  unfold patch at h
  rw [htdiv, if_pos rfl] at h
  split_ifs at h with hrange
  cases h
  have hop : IsBCond (bCond (jmpopToConditionCode op) 0 &&& 0xFF00001F)
      ((jmpopToConditionCode op).setWidth 4) := by
    cases op <;> decide
  have hmask : BitVec.ofInt 32 k &&& 0x7FFFF = ((BitVec.ofInt 32 k).setWidth 19).setWidth 32 :=
    Fields.and_mask _ (k := 19) (by decide)
  refine ⟨(BitVec.ofInt 32 k).setWidth 19, ?_, toInt_setWidth_ofInt (by decide) (by decide) ?_⟩
  · dsimp only
    rw [hmask]
    exact decode_bCond hop _
  · omega

/-- **A patched `B`.** -/
theorem patch_unconditional {k : ℤ} {f : U32 → U32} (h : patch false (4 * k) = some f) (w : U32) :
    ∃ imm26, decode (f w) = some (.b imm26) ∧ imm26.toInt = k := by
  have htdiv : (4 * k).tdiv 4 = k := Int.mul_tdiv_cancel_left k (by decide)
  unfold patch at h
  rw [htdiv, if_neg Bool.false_ne_true] at h
  split_ifs at h with hrange
  cases h
  have hmask : BitVec.ofInt 32 k &&& 0x03FFFFFF =
      ((BitVec.ofInt 32 k).setWidth 26).setWidth 32 :=
    Fields.and_mask _ (k := 26) (by decide)
  refine ⟨(BitVec.ofInt 32 k).setWidth 26, ?_, toInt_setWidth_ofInt (by decide) (by decide) ?_⟩
  · dsimp only
    rw [hmask]
    exact decode_b (by decide) _
  · omega

/-- **A line, then a branch.** -/
theorem steps_line_branch {pre : List U32} {w : U32} {cond : BitVec 4} {imm19 : BitVec 19}
    {c c' : Cpu} (hline : Line pre c c') (hdecode : decode w = some (.bCond cond imm19))
    {code : List U8} {pc : ℤ} (hcode : CodeAt code pc (pre ++ [w])) :
    steps (step code) ⟨c, pc⟩ (pre.length + 1) =
      .ok ⟨c', pc + 4 * pre.length +
        if conditionHolds cond c'.flags then 4 * imm19.toInt else 4⟩ := by
  refine steps_trans (hline.steps hcode.take) ?_
  rw [steps_one, step_of_fetch hcode.drop.head hdecode]
  rfl

end NVMirror.Aarch64
