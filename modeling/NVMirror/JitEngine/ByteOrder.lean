import NVMirror.JitAarch64.FullRuns
import NVMirror.JitAarch64.Program
import NVMirror.JitEngine.Interpreter
import NVMirror.JitRiscv.Constants

/-!
# Byte order

What the words of an `Endian` node leave in its register, against `evalEndian`.

* `byteAt_evalEndian`: the bytes of a converted value.
* `Aarch64.Converts`: to little-endian the emitter writes no words, and a halfword in big-endian
  order is masked with four bits of another register.
* `Riscv.Converts`: the emitter writes a word that does nothing.
* `endian_nodes_iff`: the values that are converted.
-/

namespace NVMirror

open Rust Bytes

/-! ### Converted values -/

/-- Bytes of a conversion. -/
def EndianWidth.byteLen : EndianWidth → ℕ
  | .bits16 => 2
  | .bits32 => 4
  | .bits64 => 8

/-- The value has no bytes above those of the conversion. -/
def Narrow (width : EndianWidth) (v : U64) : Prop :=
  ∀ i, width.byteLen ≤ i → i < 8 → byteAt v i = 0

/-- The bytes read the same in both orders. -/
def Symmetric (width : EndianWidth) (v : U64) : Prop :=
  ∀ i < width.byteLen, byteAt v i = byteAt v (width.byteLen - 1 - i)

/-- A conversion, with the width as a parameter. -/
theorem evalEndian_eq (toBe : Bool) (width : EndianWidth) (v : U64) :
    evalEndian toBe width v =
      (if toBe then swapBytes width.byteLen (v.setWidth (8 * width.byteLen))
        else v.setWidth (8 * width.byteLen)).setWidth 64 := by
  cases toBe <;> cases width <;> simp [evalEndian, EndianWidth.byteLen]

/-- **The bytes of a converted value.** -/
theorem byteAt_evalEndian (toBe : Bool) (width : EndianWidth) (v : U64) {i : ℕ} (hi : i < 8) :
    byteAt (evalEndian toBe width v) i =
      if i < width.byteLen then byteAt v (if toBe then width.byteLen - 1 - i else i) else 0 := by
  rw [evalEndian_eq, byteAt_setWidth _ (by omega)]
  split_ifs with hbe hlt hlt
  · rw [byteAt_swapBytes _ hlt (by omega), byteAt_setWidth _ (by omega)]
  · exact byteAt_of_le _ (by omega)
  · exact byteAt_setWidth _ (by omega)
  · exact byteAt_of_le _ (by omega)

/-- The values a conversion leaves alone. -/
theorem evalEndian_eq_self_iff (toBe : Bool) (width : EndianWidth) (v : U64) :
    v = evalEndian toBe width v ↔ Narrow width v ∧ (toBe = true → Symmetric width v) := by
  have hlen : width.byteLen ≤ 8 := by cases width <;> decide
  rw [eq_iff_byteAt (n := 8) (by decide)]
  constructor
  · intro h
    refine ⟨fun i hi hlt => ?_, fun hbe i hi => ?_⟩
    · rw [h i hlt, byteAt_evalEndian toBe width v hlt, if_neg (by omega)]
    · rw [h i (by omega), byteAt_evalEndian toBe width v (by omega), if_pos hi, if_pos hbe]
  · rintro ⟨hnarrow, hsymm⟩ i hi
    rw [byteAt_evalEndian toBe width v hi]
    split_ifs with hlt hbe
    · exact hsymm hbe i hlt
    · rfl
    · exact hnarrow i (by omega) hi

/-! ### AArch64 -/

namespace Aarch64

open Full

/-- A register as the source of an operation on 64 bits; register 31 is zero. -/
def readX (c : Cpu) (n : Reg) : U64 := c.get true n

theorem readX_of_ne {n : Reg} (h : n ≠ 31) (c : Cpu) : readX c n = c.x n := c.get_true h

/-- The byte whose lower half the mask of a halfword keeps: two bits of the opcode stand in the
field of the source register. -/
def maskedByte (c : Cpu) (d : Reg) : U8 :=
  if 0b11000 ||| d = d then byteAt (c.x d) 1 else byteAt (readX c (0b11000 ||| d)) 0

/-- When the words convert register `d`. -/
def Converts (toBe : Bool) (width : EndianWidth) (c : Cpu) (d : Reg) : Prop :=
  if toBe then
    width = .bits16 → byteAt (c.x d) 0 = 0 ∧ byteAt (c.x d) 1 = maskedByte c d &&& 0xF
  else Narrow width (c.x d)

theorem writes_rev (rev : RevOp) {op : U32} (h : IsRev op rev) {d : Reg} (hd : d ≠ 31) (c : Cpu) :
    Full.Puts [rr op (d.setWidth 8) (d.setWidth 8)] {d} c d (rev.eval (c.x d)) := by
  refine ⟨c.set d (rev.eval (c.x d)), Runs.word (decode_rev h d d) (fun _ => rfl)
    (fun env pc => ?_) rfl,
    c.set_x_self _ hd, SameOutside.set c d _⟩
  show c.set d (rev.eval (c.get true d)) = _
  rw [c.get_true hd]

/-- The mask has four bits. -/
theorem writes_andXImmMask (d n : Reg) (mask : U16) (c : Cpu) :
    Full.Puts [andXImmMask (d.setWidth 8) (n.setWidth 8) mask] {d} c d
      (readX c (0b11000 ||| n) &&& 0xF) := by
  refine ⟨_, Runs.word (decode_andXImmMask d n mask) (fun _ => rfl) (fun _ _ => rfl) rfl,
    c.setSp_x_self _, fun r hr => c.setSp_x_of_ne _ hr, c.setSp_mem _⟩

/-- The bytes of the halfword that `REV16` reverses. -/
theorem byteAt_rev16W (v : U64) {i : ℕ} (hi : i < 2) :
    byteAt (RevOp.rev16W.eval v) i = byteAt v (1 - i) := by
  have happend : ∀ a b : U16, byteAt ((a ++ b).setWidth 64) i = byteAt b i := by
    intro a b
    refine BitVec.eq_of_getLsbD_eq fun j hj => ?_
    have hlow : 8 * i + j < 16 := by omega
    rw [getLsbD_byteAt _ i hj, getLsbD_byteAt b i hj, BitVec.getLsbD_setWidth,
      BitVec.getLsbD_append, if_pos hlow, decide_eq_true (by omega), Bool.true_and]
  have hextract : byteAt (v.extractLsb' 0 16) (1 - i) = byteAt v (0 + (1 - i)) :=
    byteAt_extractLsb' v 0 (by omega)
  rw [Nat.zero_add] at hextract
  rw [RevOp.eval, happend, byteAt_swapBytes _ hi (by omega)]
  exact hextract

/-- A halfword between zeros, masked with four bits. -/
theorem evalEndian_bits16_eq_iff (v a : U64) :
    a &&& 0xF = evalEndian true .bits16 v ↔
      byteAt v 0 = 0 ∧ byteAt v 1 = byteAt a 0 &&& 0xF := by
  have hmask : ∀ i < 8, byteAt (a &&& 0xF) i = if i = 0 then byteAt a 0 &&& 0xF else 0 := by
    intro i hi
    rw [byteAt_and]
    interval_cases i
    all_goals first | rfl | exact BitVec.and_zero
  rw [eq_iff_byteAt (n := 8) (by decide)]
  constructor
  · intro h
    have h0 := h 0 (by omega)
    have h1 := h 1 (by omega)
    rw [hmask _ (by omega), byteAt_evalEndian _ _ _ (by omega)] at h0 h1
    exact ⟨h1.symm, h0.symm⟩
  · rintro ⟨h0, h1⟩ i hi
    rw [hmask i hi, byteAt_evalEndian _ _ _ hi]
    interval_cases i
    · exact h1.symm
    · exact h0.symm
    all_goals rfl

/-- **AArch64.** -/
theorem endianNode_iff (toBe : Bool) (width : EndianWidth) {d : Reg} (hd : d ≠ 31) (c : Cpu) :
    Full.Puts (emitEndianNode toBe width (physOf d)) {d} c d (evalEndian toBe width (c.x d)) ↔
      Converts toBe width c d := by
  cases toBe with
  | false =>
    have hnil : Full.Puts (emitEndianNode false width (physOf d)) {d} c d (c.x d) :=
      Full.Puts.nil c d
    rw [hnil.iff_eq, evalEndian_eq_self_iff]
    exact and_iff_left fun h => absurd h Bool.false_ne_true
  | true =>
    cases width with
    | bits32 =>
      refine iff_of_true ?_ fun h => by cases h
      exact writes_rev .revW (by decide) hd c
    | bits64 =>
      refine iff_of_true ?_ fun h => by cases h
      exact writes_rev .revX (by decide) hd c
    | bits16 =>
      obtain ⟨c₁, hruns, hv, hsame⟩ : Full.Puts [rev16W (d.setWidth 8) (d.setWidth 8)] {d} c d
          (RevOp.rev16W.eval (c.x d)) := writes_rev .rev16W (by decide) hd c
      have hwords : Full.Puts (emitEndianNode true .bits16 (physOf d)) {d} c d
          (readX c₁ (0b11000 ||| d) &&& 0xF) := by
        obtain ⟨c₂, hruns', hv', hsame'⟩ := writes_andXImmMask d d 0xFFFF c₁
        exact ⟨c₂, hruns.append hruns', hv', hsame.trans hsame'⟩
      have hbyte : byteAt (readX c₁ (0b11000 ||| d)) 0 = maskedByte c d := by
        unfold maskedByte
        by_cases hsrc : 0b11000 ||| d = d
        · rw [if_pos hsrc, hsrc, readX_of_ne hd, hv, byteAt_rev16W _ (by omega)]
        · rw [if_neg hsrc]
          unfold readX Cpu.get
          rw [hsame.x _ hsrc]
      rw [hwords.iff_eq, evalEndian_bits16_eq_iff, hbyte]
      exact ⟨fun h _ => h, fun h => h rfl⟩

end Aarch64

/-! ### RISC-V -/

namespace Riscv

/-- When the word converts register `d`. -/
def Converts (toBe : Bool) (width : EndianWidth) (c : Cpu) (d : Reg) : Prop :=
  Narrow width (c.x d) ∧ (toBe = true → Symmetric width (c.x d))

/-- **RISC-V.** -/
theorem endianNode_iff (toBe : Bool) (width : EndianWidth) {d : Reg} (hd : d ≠ 0) (c : Cpu) :
    Writes (emitEndianNode toBe width (physOf d)) {d} c d (evalEndian toBe width (c.x d)) ↔
      Converts toBe width c d := by
  have hword : Writes (emitEndianNode toBe width (physOf d)) {d} c d (c.x d) := writes_mv hd c hd
  rw [hword.iff_eq, evalEndian_eq_self_iff]
  rfl

end Riscv

/-! ### Both emitters -/

/-- **Byte-order conversion** agrees with the interpreter on these values. -/
theorem endian_nodes_iff (toBe : Bool) (width : EndianWidth) (dst : BpfReg) :
    (∀ c : Aarch64.Cpu,
      Aarch64.Full.Puts (Aarch64.emitEndianNode toBe width (aarch64Regmap.phys dst))
        {Aarch64.xreg dst} c (Aarch64.xreg dst)
        (evalEndian toBe width (c.x (Aarch64.xreg dst))) ↔
          Aarch64.Converts toBe width c (Aarch64.xreg dst)) ∧
    (∀ c : Riscv.Cpu,
      Riscv.Writes (Riscv.emitEndianNode toBe width (riscv64Regmap.phys dst))
        {Riscv.xreg dst} c (Riscv.xreg dst)
        (evalEndian toBe width (c.x (Riscv.xreg dst))) ↔
          Riscv.Converts toBe width c (Riscv.xreg dst)) := by
  rw [Aarch64.phys_eq, Riscv.phys_eq]
  exact ⟨fun c => Aarch64.endianNode_iff toBe width (Aarch64.xreg_free dst).2.2.2.2 c,
    fun c => Riscv.endianNode_iff toBe width (Riscv.xreg_ne_zero dst) c⟩

/-- A value of 17 bits is not cut down to a halfword, on either machine. -/
theorem endian_nodes_bit16 :
    let cpu : Aarch64.Cpu := ⟨fun _ => 0x10000, ⟨false, false, false, false⟩, fun _ => 0⟩
    let cpu' : Riscv.Cpu := ⟨fun _ => 0x10000, fun _ => 0, none⟩
    ¬ Aarch64.Full.Puts (Aarch64.emitEndianNode false .bits16 (aarch64Regmap.phys BpfReg.r1))
        {Aarch64.xreg BpfReg.r1} cpu (Aarch64.xreg BpfReg.r1) (evalEndian false .bits16 0x10000) ∧
      ¬ Riscv.Writes (Riscv.emitEndianNode false .bits16 (riscv64Regmap.phys BpfReg.r1))
        {Riscv.xreg BpfReg.r1} cpu' (Riscv.xreg BpfReg.r1) (evalEndian false .bits16 0x10000) := by
  intro cpu cpu'
  have hbyte : byteAt (0x10000 : U64) 2 ≠ 0 := by decide
  rw [Aarch64.phys_eq, Riscv.phys_eq]
  constructor
  · intro h
    have hnarrow := (Aarch64.endianNode_iff false .bits16 (by decide) cpu).1 h
    exact hbyte (hnarrow 2 (by decide) (by omega))
  · intro h
    have hconv := (Riscv.endianNode_iff false .bits16 (by decide) cpu').1 h
    exact hbyte (hconv.1 2 (by decide) (by omega))

end NVMirror
