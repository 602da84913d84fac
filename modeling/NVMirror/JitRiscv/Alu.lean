import NVMirror.JitEngine.Arithmetic
import NVMirror.JitEngine.Comparison
import NVMirror.JitRiscv.Constants

/-!
# Arithmetic on the machine

What the words of an arithmetic node on registers leave in the destination.

* `alu64_iff`: on 64 bits what the interpreter computes, but for a quotient by zero, which is 0 for
  the interpreter and has all bits set on RV64.
* `alu32_iff`: on 32 bits the result of a word instruction is sign-extended, so it is that of the
  interpreter iff it is below 2³¹ (`BelowSign`).  The operations without a word instruction clear
  the upper half.
-/

namespace NVMirror.Riscv

open Rust

/-! ### Operations on 64 bits -/

/-- The result of an operation on RV64: a quotient by zero has all bits set. -/
def rvResult {w : ℕ} (op : AluOp) (a b : BitVec w) : BitVec w :=
  if op = .div ∧ b = 0 then BitVec.allOnes w else aluResult op a b

theorem divu_eq {w : ℕ} (a b : BitVec w) : DataOp.divu.eval a b = rvResult .div a b := by
  by_cases hb : b = 0
  · rw [rvResult, if_pos ⟨rfl, hb⟩]
    exact if_pos hb
  · rw [rvResult, if_neg fun h => hb h.2]
    exact (if_neg hb).trans (if_neg hb).symm

/-- The results differ at a quotient by zero. -/
theorem rvResult_eq_iff {w : ℕ} (hw : 0 < w) (op : AluOp) (a b : BitVec w) :
    rvResult op a b = aluResult op a b ↔ (op = .div → b ≠ 0) := by
  by_cases h : op = .div ∧ b = 0
  · rw [rvResult, if_pos h]
    obtain ⟨rfl, rfl⟩ := h
    have hzero : aluResult .div a (0 : BitVec w) = 0 := by
      dsimp only [aluResult]
      exact if_pos rfl
    have hne : BitVec.allOnes w ≠ 0 := by
      intro heq
      have hbit := congrArg (fun x => x.getLsbD 0) heq
      simp [hw] at hbit
    rw [hzero]
    exact ⟨fun heq => absurd heq hne, fun h => absurd rfl (h rfl)⟩
  · rw [rvResult, if_neg h]
    exact ⟨fun _ hop hb => h ⟨hop, hb⟩, fun _ => rfl⟩

variable {ε : Type} [Profile]

omit [Profile] in
/-- The word of an operation on the destination and another register. -/
theorem writes_reg {d s : Reg} (hd : d ≠ 0) (hs : s ≠ 0) (c : Cpu) (funct7 : BitVec 7)
    (funct3 : BitVec 3) {f : DataOp} (h : dataOp funct7 funct3 = some f) :
    Writes [rType (funct7.setWidth 32) (s.setWidth 8) (d.setWidth 8) (funct3.setWidth 32)
      (d.setWidth 8) 0x33] {d} c d (f.eval (c.x d) (c.x s)) := by
  have hw := writes_op hd c funct7 funct3 h d s
  rwa [c.get_of_ne hd, c.get_of_ne hs] at hw

/-- **Operations on 64 bits.** -/
theorem writes_alu64 (op : AluOp) {d s : Reg} (hd : d ≠ 0) (hs : s ≠ 0) :
    ∃ ws, emitAlu64Node (ε := ε) op (physOf d) (.reg (physOf s)) = .ok ws ∧
      ∀ c : Cpu, Writes ws {d} c d (rvResult op (c.x d) (c.x s)) := by
  have hop : ∀ (funct7 : BitVec 7) (funct3 : BitVec 3) {f : DataOp},
      dataOp funct7 funct3 = some f → (∀ a b : U64, f.eval a b = rvResult op a b) →
        ∀ c : Cpu, Writes [rType (funct7.setWidth 32) (s.setWidth 8) (d.setWidth 8)
          (funct3.setWidth 32) (d.setWidth 8) 0x33] {d} c d (rvResult op (c.x d) (c.x s)) := by
    intro funct7 funct3 f h heval c
    rw [← heval]
    exact writes_reg hd hs c funct7 funct3 h
  cases op with
  | add => exact ⟨_, by rw [emitAlu64Node]; rfl, hop 0 0 rfl fun _ _ => rfl⟩
  | sub => exact ⟨_, by rw [emitAlu64Node]; rfl, hop 0x20 0 rfl fun _ _ => rfl⟩
  | mul => exact ⟨_, by rw [emitAlu64Node]; rfl, hop 1 0 rfl fun _ _ => rfl⟩
  | div => exact ⟨_, by rw [emitAlu64Node]; rfl, hop 1 5 rfl divu_eq⟩
  | mod => exact ⟨_, by rw [emitAlu64Node]; rfl, hop 1 7 rfl fun _ _ => rfl⟩
  | or => exact ⟨_, by rw [emitAlu64Node]; rfl, hop 0 6 rfl fun _ _ => rfl⟩
  | and => exact ⟨_, by rw [emitAlu64Node]; rfl, hop 0 7 rfl fun _ _ => rfl⟩
  | xor => exact ⟨_, by rw [emitAlu64Node]; rfl, hop 0 4 rfl fun _ _ => rfl⟩
  | lsh => exact ⟨_, by rw [emitAlu64Node]; rfl, hop 0 1 rfl fun _ _ => rfl⟩
  | rsh => exact ⟨_, by rw [emitAlu64Node]; rfl, hop 0 5 rfl fun _ _ => rfl⟩
  | arsh => exact ⟨_, by rw [emitAlu64Node]; rfl, hop 0x20 5 rfl fun _ _ => rfl⟩
  | mov => exact ⟨_, by rw [emitAlu64Node]; rfl, fun c => writes_mv hd c hs⟩
  | neg =>
    refine ⟨_, by rw [emitAlu64Node]; rfl, fun c => ?_⟩
    have hw := writes_op hd c 0x20 0 rfl 0 d
    have heval : rvResult .neg (c.x d) (c.x s) = DataOp.sub.eval 0 (c.x d) :=
      (BitVec.zero_sub _).symm
    rw [c.get_of_ne hd, Cpu.get_zero, ← heval] at hw
    exact hw

/-- **Arithmetic on 64 bits** leaves the result of the interpreter, but for a quotient by zero. -/
theorem alu64_iff (op : AluOp) (dst src : BpfReg) :
    ∃ ws, emitAlu64Node (ε := RiscVEmitError) op (riscv64Regmap.phys dst)
        (.reg (riscv64Regmap.phys src)) = .ok ws ∧
      ∀ c : Cpu, ∃ v, @evalAlu64 release op (c.x (xreg dst)) (c.x (xreg src)) = .ok v ∧
        (Writes ws {xreg dst} c (xreg dst) v ↔ (op = .div → c.x (xreg src) ≠ 0)) := by
  obtain ⟨ws, hemit, hwrites⟩ := writes_alu64 (ε := RiscVEmitError) op (xreg_ne_zero dst)
    (xreg_ne_zero src)
  rw [phys_eq, phys_eq]
  refine ⟨ws, hemit, fun c => ⟨_, evalAlu64_eq op _ _, ?_⟩⟩
  rw [(hwrites c).iff_eq, rvResult_eq_iff (by decide)]

/-! ### Operations on 32 bits -/

omit [Profile] in
theorem shiftLeft_shiftRight (a : U64) : a <<< 32 >>> 32 = (low a).setWidth 64 := by
  have hlt := a.isLt
  rw [← BitVec.toNat_inj, BitVec.toNat_ushiftRight, BitVec.toNat_shiftLeft, BitVec.toNat_setWidth,
    low, BitVec.toNat_setWidth, Nat.shiftLeft_eq, Nat.shiftRight_eq_div_pow]
  omega

omit [Profile] in
/-- `SLLI` and `SRLI` clear the upper half. -/
theorem writes_zeroExtend {d : Reg} (hd : d ≠ 0) (c : Cpu) :
    Writes (zeroExtend (physOf d)) {d} c d ((low (c.x d)).setWidth 64) := by
  refine (writes_shiftImm hd c 0 1 rfl d 32).append fun c' hval _ => ?_
  have hw := writes_shiftImm hd c' 0 5 rfl d 32
  rw [c'.get_of_ne hd, hval, c.get_of_ne hd] at hw
  rw [← shiftLeft_shiftRight]
  exact hw

/-- Operations with a word instruction. -/
def hasWord : AluOp → Bool
  | .mov | .or | .and | .xor => false
  | _ => true

/-- What the words of an operation on 32 bits leave. -/
def rvResult32 (op : AluOp) (a b : U32) : U64 :=
  if hasWord op then (rvResult op a b).signExtend 64 else (aluResult op a b).setWidth 64

/-- **Operations on 32 bits.** -/
theorem writes_alu32 (op : AluOp) {d s : Reg} (hd : d ≠ 0) (hs : s ≠ 0) :
    ∃ ws, emitAlu32Node (ε := ε) op (physOf d) (.reg (physOf s)) = .ok ws ∧
      ∀ c : Cpu, Writes ws {d} c d (rvResult32 op (low (c.x d)) (low (c.x s))) := by
  have hop : ∀ (funct7 : BitVec 7) (funct3 : BitVec 3) {f : DataOp},
      (dataOp funct7 funct3).filter DataOp.hasWord = some f → hasWord op = true →
      (∀ a b : U32, f.eval a b = rvResult op a b) →
        ∀ c : Cpu, Writes [rType (funct7.setWidth 32) (s.setWidth 8) (d.setWidth 8)
          (funct3.setWidth 32) (d.setWidth 8) 0x3B] {d} c d
            (rvResult32 op (low (c.x d)) (low (c.x s))) := by
    intro funct7 funct3 f h hword heval c
    have hw := writes_opWord hd c funct7 funct3 h d s
    rw [c.get_of_ne hd, c.get_of_ne hs, heval] at hw
    rw [rvResult32, if_pos hword]
    exact hw
  -- without a word instruction, the operation on 64 bits first
  have hop64 : ∀ {w : U32} (v : Cpu → U64), hasWord op = false →
      (∀ c : Cpu, Writes [w] {d} c d (v c)) →
      (∀ c : Cpu, low (v c) = aluResult op (low (c.x d)) (low (c.x s))) →
        ∀ c : Cpu, Writes (w :: zeroExtend (physOf d)) {d} c d
          (rvResult32 op (low (c.x d)) (low (c.x s))) := by
    intro w v hword hw hlow c
    rw [rvResult32, hword, if_neg Bool.false_ne_true, ← hlow]
    refine (hw c).append fun c' hval _ => ?_
    rw [← hval]
    exact writes_zeroExtend hd c'
  have hreg := fun c => writes_reg hd hs c 0
  cases op with
  | add => exact ⟨_, by rw [emitAlu32Node]; rfl, hop 0 0 rfl rfl fun _ _ => rfl⟩
  | sub => exact ⟨_, by rw [emitAlu32Node]; rfl, hop 0x20 0 rfl rfl fun _ _ => rfl⟩
  | mul => exact ⟨_, by rw [emitAlu32Node]; rfl, hop 1 0 rfl rfl fun _ _ => rfl⟩
  | div => exact ⟨_, by rw [emitAlu32Node]; rfl, hop 1 5 rfl rfl divu_eq⟩
  | mod => exact ⟨_, by rw [emitAlu32Node]; rfl, hop 1 7 rfl rfl fun _ _ => rfl⟩
  | lsh => exact ⟨_, by rw [emitAlu32Node]; rfl, hop 0 1 rfl rfl fun _ _ => rfl⟩
  | rsh => exact ⟨_, by rw [emitAlu32Node]; rfl, hop 0 5 rfl rfl fun _ _ => rfl⟩
  | arsh => exact ⟨_, by rw [emitAlu32Node]; rfl, hop 0x20 5 rfl rfl fun _ _ => rfl⟩
  | or =>
    exact ⟨_, by rw [emitAlu32Node]; rfl, hop64 _ rfl (fun c => hreg c 6 rfl) fun _ =>
      BitVec.setWidth_or⟩
  | and =>
    exact ⟨_, by rw [emitAlu32Node]; rfl, hop64 _ rfl (fun c => hreg c 7 rfl) fun _ =>
      BitVec.setWidth_and⟩
  | xor =>
    exact ⟨_, by rw [emitAlu32Node]; rfl, hop64 _ rfl (fun c => hreg c 4 rfl) fun _ =>
      BitVec.setWidth_xor⟩
  | mov =>
    exact ⟨_, by rw [emitAlu32Node]; rfl, hop64 _ rfl (fun c => writes_mv hd c hs) fun _ => rfl⟩
  | neg =>
    refine ⟨_, by rw [emitAlu32Node]; rfl, fun c => ?_⟩
    have hw := writes_opWord hd c 0x20 0 rfl 0 d
    have heval : rvResult .neg (low (c.x d)) (low (c.x s)) = DataOp.sub.eval 0 (low (c.x d)) :=
      (BitVec.zero_sub _).symm
    rw [c.get_of_ne hd] at hw
    show Writes _ _ c d ((rvResult .neg (low (c.x d)) (low (c.x s))).signExtend 64)
    rw [heval]
    exact hw

omit [Profile] in
/-- Sign extension is zero extension iff the highest bit is 0. -/
theorem signExtend_eq_iff (v : U32) : v.signExtend 64 = v.setWidth 64 ↔ v.msb = false := by
  have hlt := v.isLt
  obtain ⟨hmsb, hsigned⟩ := toInt_of_msb v
  have hzero : (v.setWidth 64).toInt = v.toNat := by
    rw [BitVec.toInt_eq_toNat_cond, BitVec.toNat_setWidth, Nat.mod_eq_of_lt (by omega),
      if_pos (by omega)]
  rw [← BitVec.toInt_inj, BitVec.toInt_signExtend_of_le (by decide), hzero, hmsb, hsigned,
    decide_eq_false_iff_not]
  split_ifs <;> omega

/-- For which operands the word instruction of an operation leaves a result below 2³¹. -/
def BelowSign (op : AluOp) (a b : U32) : Prop :=
  match op with
  | .add => (a.toNat + b.toNat) % 2 ^ 32 < 2 ^ 31
  | .sub => ((a.toNat : ℤ) - b.toNat) % 2 ^ 32 < 2 ^ 31
  | .mul => a.toNat * b.toNat % 2 ^ 32 < 2 ^ 31
  | .mod => a.toNat % b.toNat < 2 ^ 31
  | .lsh => a.toNat * 2 ^ (b.toNat % 32) % 2 ^ 32 < 2 ^ 31
  | .rsh => a.toNat < 2 ^ 31 ∨ b.toNat % 32 ≠ 0
  | .arsh => a.toNat < 2 ^ 31
  | .neg => a.toNat = 0 ∨ 2 ^ 31 < a.toNat
  | .div | .mov | .or | .and | .xor => True

omit [Profile] in
/-- It is below iff its highest bit is 0. -/
theorem belowSign_iff {op : AluOp} (hop : op ≠ .div) (a b : U32) :
    BelowSign op a b ↔ (hasWord op = true → (aluResult op a b).msb = false) := by
  have ha := a.isLt
  have hb := b.isLt
  have hmsb : ∀ v : U32, v.msb = false ↔ v.toNat < 2 ^ 31 := by
    intro v
    rw [BitVec.msb_eq_false_iff_two_mul_lt]
    omega
  rw [hmsb]
  cases op with
  | div => exact absurd rfl hop
  | mov | or | and | xor => exact iff_of_true trivial (by simp [hasWord])
  | add =>
    dsimp only [BelowSign, hasWord, aluResult]
    rw [BitVec.toNat_add]
    simp
  | sub =>
    dsimp only [BelowSign, hasWord, aluResult]
    rw [BitVec.toNat_sub]
    simp
    omega
  | mul =>
    dsimp only [BelowSign, hasWord, aluResult]
    rw [BitVec.toNat_mul]
    simp
  | mod =>
    have hmod : (aluResult .mod a b).toNat = a.toNat % b.toNat := by
      dsimp only [aluResult]
      split_ifs with hzero
      · rw [hzero]
        simp
      · rw [BitVec.toNat_umod]
    rw [hmod]
    simp [BelowSign, hasWord]
  | lsh =>
    dsimp only [BelowSign, hasWord, aluResult]
    rw [BitVec.toNat_shiftLeft, Nat.shiftLeft_eq]
    simp
  | rsh =>
    dsimp only [BelowSign, hasWord, aluResult]
    rw [BitVec.toNat_ushiftRight, Nat.shiftRight_eq_div_pow]
    generalize b.toNat % 32 = k
    cases k with
    | zero => simp
    | succ k =>
      have hpow : 2 ≤ 2 ^ (k + 1) := by
        rw [pow_succ]
        have := Nat.one_le_two_pow (n := k)
        omega
      have hle := Nat.div_le_div_left hpow (by decide) (a := a.toNat)
      refine iff_of_true (Or.inr (Nat.succ_ne_zero k)) fun _ => ?_
      omega
  | arsh =>
    dsimp only [BelowSign, hasWord, aluResult]
    rw [← hmsb, ← hmsb, BitVec.msb_sshiftRight]
    simp
  | neg =>
    dsimp only [BelowSign, hasWord, aluResult]
    rw [BitVec.toNat_neg]
    simp
    omega

/-- **Arithmetic on 32 bits** leaves the result of the interpreter, extended with zeros, iff no word
instruction extends its sign. -/
theorem alu32_iff {op : AluOp} (hop : op ≠ .div) (dst src : BpfReg) :
    ∃ ws, emitAlu32Node (ε := RiscVEmitError) op (riscv64Regmap.phys dst)
        (.reg (riscv64Regmap.phys src)) = .ok ws ∧
      ∀ c : Cpu, ∃ v, @evalAlu32 release op (low (c.x (xreg dst))) (low (c.x (xreg src))) = .ok v ∧
        (Writes ws {xreg dst} c (xreg dst) (v.setWidth 64) ↔
          BelowSign op (low (c.x (xreg dst))) (low (c.x (xreg src)))) := by
  obtain ⟨ws, hemit, hwrites⟩ := writes_alu32 (ε := RiscVEmitError) op (xreg_ne_zero dst)
    (xreg_ne_zero src)
  rw [phys_eq, phys_eq]
  refine ⟨ws, hemit, fun c => ⟨_, evalAlu32_eq op _ _, ?_⟩⟩
  have hresult := (rvResult_eq_iff (by decide) op (low (c.x (xreg dst)))
    (low (c.x (xreg src)))).2 fun h => absurd h hop
  rw [(hwrites c).iff_eq, rvResult32, hresult, belowSign_iff hop]
  cases hasWord op with
  | true =>
    rw [if_pos rfl, signExtend_eq_iff]
    exact ⟨fun h _ => h, fun h => h rfl⟩
  | false =>
    rw [if_neg Bool.false_ne_true]
    exact ⟨fun _ h => absurd h Bool.false_ne_true, fun _ => rfl⟩

omit [Profile] in
/-- `alu32_iff` for a sum. -/
theorem alu32_iff_add : AluOp.add ≠ .div ∧
    ∃ ws, @emitAlu32Node RiscVEmitError debug .add (riscv64Regmap.phys BpfReg.r1)
        (.reg (riscv64Regmap.phys BpfReg.r2)) = .ok ws ∧
      ∀ c : Cpu, ∃ v, @evalAlu32 release .add (low (c.x 11)) (low (c.x 12)) = .ok v ∧
        (Writes ws {11} c 11 (v.setWidth 64) ↔ BelowSign .add (low (c.x 11)) (low (c.x 12))) :=
  ⟨by decide, @alu32_iff debug .add (by decide) BpfReg.r1 BpfReg.r2⟩

/-! ### Where the results differ -/

/-- All registers hold `a`, except that `R2` holds `b`. -/
def operands (a b : U64) : Cpu := ⟨fun r => if r = 12 then b else a, fun _ => 0, none⟩

omit [Profile] in
/-- 1 divided by 0. -/
theorem alu64_oneZero : ¬ ∃ ws, @emitAlu64Node RiscVEmitError debug .div
      (riscv64Regmap.phys BpfReg.r1) (.reg (riscv64Regmap.phys BpfReg.r2)) = .ok ws ∧
    ∃ v, @evalAlu64 release .div 1 0 = .ok v ∧ Writes ws {11} (operands 1 0) 11 v := by
  rintro ⟨ws, hemit, v, hv, hwrites⟩
  obtain ⟨ws', hemit', hwrites'⟩ :=
    @writes_alu64 RiscVEmitError debug .div 11 12 (by decide) (by decide)
  cases hemit.symm.trans hemit'
  cases hv
  exact absurd ((hwrites' (operands 1 0)).unique hwrites) (by decide)

omit [Profile] in
/-- The sum of 2³¹ and 0. -/
theorem alu32_signBit : ¬ ∃ ws, @emitAlu32Node RiscVEmitError debug .add
      (riscv64Regmap.phys BpfReg.r1) (.reg (riscv64Regmap.phys BpfReg.r2)) = .ok ws ∧
    ∃ v, @evalAlu32 release .add 0x80000000 0 = .ok v ∧
      Writes ws {11} (operands 0x80000000 0) 11 (v.setWidth 64) := by
  rintro ⟨ws, hemit, v, hv, hwrites⟩
  obtain ⟨ws', hemit', hwrites'⟩ :=
    @writes_alu32 RiscVEmitError debug .add 11 12 (by decide) (by decide)
  cases hemit.symm.trans hemit'
  cases hv
  exact absurd ((hwrites' (operands 0x80000000 0)).unique hwrites) (by decide)

end NVMirror.Riscv
