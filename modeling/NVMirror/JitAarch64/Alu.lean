import NVMirror.JitAarch64.Line
import NVMirror.JitAarch64.Nodes
import NVMirror.JitEngine.Arithmetic

/-!
# Arithmetic on the machine

The words of an arithmetic node compute what the interpreter computes.

* `writes_loadImm64`: `MOVZ` and `MOVK` build every constant.
* `writes_alu64`, `writes_alu32`: every operation, in every form of its operand.  Only the
  destination, `X9` and `X12` change.
-/

namespace NVMirror.Aarch64

open Rust

/-- An operand on the machine. -/
def operandVal (c : Cpu) : Operand → U64
  | .imm v => v
  | .reg p => c.x (p.num.setWidth 5)

/-! ### Constants -/

/-- The chunks below `i`. -/
def lowChunks (imm : U64) (i : ℕ) : U64 := (imm.setWidth (16 * i)).setWidth 64

theorem getLsbD_lowChunks (imm : U64) (i j : ℕ) :
    (lowChunks imm i).getLsbD j = (decide (j < 16 * i) && imm.getLsbD j) := by
  unfold lowChunks
  by_cases hj : j < 64
  · simp [hj]
  · have hge : imm.getLsbD j = false := BitVec.getLsbD_of_ge _ _ (by omega)
    simp [hj, hge]

theorem getLsbD_insert16 {w : ℕ} (old : BitVec w) (imm16 : U16) (p : ℕ) {j : ℕ} (hj : j < w) :
    (insert16 old imm16 p).getLsbD j =
      if p ≤ j ∧ j < p + 16 then imm16.getLsbD (j - p) else old.getLsbD j := by
  have hones : ∀ k, (0xFFFF#16).getLsbD k = decide (k < 16) := fun k =>
    BitVec.getLsbD_allOnes (v := 16)
  have hbit : (insert16 old imm16 p).getLsbD j =
      ((old.getLsbD j && !(decide (p ≤ j) && decide (j - p < 16))) ||
        (decide (p ≤ j) && imm16.getLsbD (j - p))) := by
    have hoff : j - p < w := by omega
    unfold insert16
    simp only [BitVec.getLsbD_or, BitVec.getLsbD_and, BitVec.getLsbD_not, BitVec.getLsbD_shiftLeft,
      BitVec.getLsbD_setWidth, hones, hj, hoff, decide_true, Bool.true_and, ← Nat.not_le,
      decide_not, Bool.not_not]
  rw [hbit]
  split_ifs with h
  · have hoff : j - p < 16 := by omega
    simp [h.1, hoff]
  · by_cases hp : p ≤ j
    · have hoff : ¬ j - p < 16 := by omega
      simp [hoff, BitVec.getLsbD_of_ge imm16 (j - p) (by omega)]
    · simp [hp]

/-- One more chunk. -/
theorem insert16_lowChunks (imm : U64) (i : ℕ) :
    insert16 (lowChunks imm i) (chunk imm i) (16 * i) = lowChunks imm (i + 1) := by
  refine BitVec.eq_of_getLsbD_eq fun j hj => ?_
  rw [getLsbD_insert16 _ _ _ hj, getLsbD_lowChunks, getLsbD_lowChunks]
  split_ifs with h
  · have hoff : j - 16 * i < 16 := by omega
    have hlt : j < 16 * (i + 1) := by omega
    simp [chunk, hoff, hlt, Nat.add_sub_cancel' h.1]
  · by_cases hlt : j < 16 * i
    · have hlt' : j < 16 * (i + 1) := by omega
      simp [hlt, hlt']
    · have hlt' : ¬ j < 16 * (i + 1) := by omega
      simp [hlt, hlt']

/-- A chunk that is zero adds nothing. -/
theorem lowChunks_succ_of_zero {imm : U64} {i : ℕ} (h : chunk imm i = 0#16) :
    lowChunks imm (i + 1) = lowChunks imm i := by
  refine BitVec.eq_of_getLsbD_eq fun j hj => ?_
  rw [getLsbD_lowChunks, getLsbD_lowChunks]
  by_cases hlt : j < 16 * i
  · have hlt' : j < 16 * (i + 1) := by omega
    simp [hlt, hlt']
  · by_cases hlt' : j < 16 * (i + 1)
    · -- the bit is one of the chunk
      have hbit : (chunk imm i).getLsbD (j - 16 * i) = imm.getLsbD j := by
        have hoff : j - 16 * i < 16 := by omega
        simp [chunk, hoff, Nat.add_sub_cancel' (not_lt.1 hlt)]
      rw [h, BitVec.getLsbD_zero] at hbit
      simp [← hbit]
    · simp [hlt, hlt']

/-- `MOVK` of chunk `i`. -/
theorem writes_movkChunk {d : Reg} (hd : d ≠ 31) {imm : U64} {i : ℕ} (hi : i < 4) {c : Cpu}
    (hc : c.x d = lowChunks imm i) :
    Writes (movkChunk (physOf d) imm i) {d} c d (lowChunks imm (i + 1)) := by
  unfold movkChunk
  split_ifs with hzero
  · have hop : IsMovWide (0xF2800000 ||| (((BitVec.ofNat 8 i).setWidth 32 &&& 3) <<< 21)) true true
        (BitVec.ofNat 2 i) := by
      interval_cases i <;> decide
    have hpos : (BitVec.ofNat 2 i).toNat = i := by
      rw [BitVec.toNat_ofNat]
      omega
    refine Writes.word (decode_movWide hop d (chunk imm i)) rfl hd ?_
    dsimp only [Instr.exec]
    have hold : c.get true d = lowChunks imm i := (c.get_true hd).trans hc
    rw [if_pos rfl, hold, hpos]
    exact congrArg (c.set d) ((BitVec.setWidth_eq _).trans (insert16_lowChunks imm i))
  · rw [not_not] at hzero
    exact ⟨c, Line.nil c, hc.trans (lowChunks_succ_of_zero hzero).symm, SameOutside.refl _ c⟩

/-- **Constants.** -/
theorem writes_loadImm64 {d : Reg} (hd : d ≠ 31) (imm : U64) (c : Cpu) :
    Writes (emitLoadImm64 (physOf d) imm) {d} c d imm := by
  have hmovz : Writes [movzX (physOf d).num (chunk imm 0) 0] {d} c d (lowChunks imm 1) := by
    have hop : IsMovWide (0xD2800000 ||| (((0 : U8).setWidth 32 &&& 3) <<< 21)) false true 0 := by
      decide
    refine Writes.word (decode_movWide hop d (chunk imm 0)) rfl hd ?_
    dsimp only [Instr.exec]
    have hzero : lowChunks imm 0 = 0 := by
      refine BitVec.eq_of_getLsbD_eq fun j hj => ?_
      rw [getLsbD_lowChunks]
      simp
    have hinsert := insert16_lowChunks imm 0
    rw [hzero] at hinsert
    rw [if_neg Bool.false_ne_true]
    exact congrArg (c.set d) ((BitVec.setWidth_eq _).trans hinsert)
  have hall : lowChunks imm 4 = imm := by
    refine BitVec.eq_of_getLsbD_eq fun j hj => ?_
    rw [getLsbD_lowChunks]
    simp [hj]
  have hchunks := hmovz.append subset_rfl fun c₁ h₁ _ =>
    ((writes_movkChunk hd (by omega) h₁).append subset_rfl fun c₂ h₂ _ =>
      writes_movkChunk hd (by omega) h₂).append subset_rfl fun c₃ h₃ _ =>
        writes_movkChunk hd (by omega) h₃
  rw [hall] at hchunks
  rw [emitLoadImm64_eq]
  exact hchunks

/-! ### Remainders -/

/-- A remainder from the quotient, also by zero. -/
theorem sub_mul_udiv {w : ℕ} (a b : BitVec w) :
    a - DataOp.udiv.eval a b * b = aluResult .mod a b := by
  dsimp only [DataOp.eval, aluResult]
  split_ifs with hb
  · exact (congrArg (a - ·) (BitVec.zero_mul)).trans (BitVec.sub_zero a)
  · have hle : a.toNat / b.toNat * b.toNat ≤ a.toNat := Nat.div_mul_le_self _ _
    have hlt := a.isLt
    have hsum : 2 ^ w - a.toNat / b.toNat * b.toNat + a.toNat =
        2 ^ w + (a.toNat - a.toNat / b.toNat * b.toNat) := by omega
    refine BitVec.eq_of_toNat_eq ?_
    rw [BitVec.toNat_sub, BitVec.toNat_mul, BitVec.toNat_udiv, BitVec.toNat_umod,
      Nat.mod_eq_of_lt (hle.trans_lt hlt), hsum, Nat.add_mod_left, Nat.mod_eq_of_lt (by omega),
      Nat.mod_eq_sub_div_mul]

/-! ### Operands in registers -/

/-- The opcode of an operation on 64 bits has the highest bit set. -/
def opcode (sf : Bool) (op : U32) : U32 := if sf then 0x80000000 ||| op else op

/-- The words of an operation on registers. -/
def regWords (sf : Bool) (op : AluOp) (d s : Reg) : List U32 :=
  let word (op : U32) (d n m : Reg) : U32 :=
    rrr (opcode sf op) (d.setWidth 8) (n.setWidth 8) (m.setWidth 8)
  match op with
  | .add => [word 0x0B000000 d d s]
  | .sub => [word 0x4B000000 d d s]
  | .mul => [word 0x1B007C00 d d s]
  | .div => [word 0x1AC00800 d d s]
  | .mod => [word 0x1AC00800 12 d s, rrrr (opcode sf 0x1B008000) (d.setWidth 8)
      ((12 : Reg).setWidth 8) (s.setWidth 8) (d.setWidth 8)]
  | .or => [word 0x2A000000 d d s]
  | .and => [word 0x0A000000 d d s]
  | .xor => [word 0x4A000000 d d s]
  | .lsh => [word 0x1AC02000 d d s]
  | .rsh => [word 0x1AC02400 d d s]
  | .arsh => [word 0x1AC02800 d d s]
  | .mov => [word 0x2A000000 d 31 s]
  | .neg => [word 0x4B000000 d 31 d]

theorem emitAlu64Node_eq_regWords {ε : Type} [Profile] (op : AluOp) (d s : Reg) :
    emitAlu64Node (ε := ε) op (physOf d) (.reg (physOf s)) = .ok (regWords true op d s) := by
  cases op <;> · rw [emitAlu64Node]; rfl

theorem emitAlu32Node_eq_regWords (op : AluOp) (d s : Reg) :
    emitAlu32Node op (physOf d) (.reg (physOf s)) = regWords false op d s := by
  cases op <;> · rw [emitAlu32Node]; rfl

/-- `MUL` and `MSUB`. -/
theorem writes_multiply {w : U32} {sub sf : Bool} {d n m a : Reg}
    (h : decode w = some (.multiply sub sf d n m a)) (hd : d ≠ 31) (c : Cpu) :
    Writes [w] {d} c d ((if sub then c.get sf a - c.get sf n * c.get sf m
      else c.get sf a + c.get sf n * c.get sf m).setWidth 64) :=
  Writes.word h rfl hd rfl

/-- **Operands in registers.**  The source may be `X9`. -/
theorem writes_regWords (sf : Bool) (op : AluOp) {d s : Reg} (hd : d ≠ 31) (hd12 : d ≠ 12)
    (hs : s ≠ 31) (hs12 : s ≠ 12) (c : Cpu) :
    Writes (regWords sf op d s) {d, 12} c d
      ((aluResult op (c.get sf d) (c.get sf s)).setWidth 64) := by
  have hsub : ({d} : Set Reg) ⊆ {d, 12} := by simp
  have hdata : ∀ {op : U32} (dop : DataOp) (n m : Reg) {v : BitVec (width sf)},
      IsData (opcode sf op) dop sf → dop ≠ .subs → dop.eval (c.get sf n) (c.get sf m) = v →
      Writes [rrr (opcode sf op) (d.setWidth 8) (n.setWidth 8) (m.setWidth 8)] {d, 12} c d
        (v.setWidth 64) := by
    intro op dop n m v h hop hv
    rw [← hv]
    exact (writes_data h hop hd n m c).mono hsub
  cases op with
  | add =>
    exact hdata .add d s (by cases sf <;> decide) (by decide) (addWithCarry_add _ _)
  | sub =>
    exact hdata .sub d s (by cases sf <;> decide) (by decide) (addWithCarry_sub _ _)
  | div => exact hdata .udiv d s (by cases sf <;> decide) (by decide) rfl
  | or => exact hdata .orr d s (by cases sf <;> decide) (by decide) rfl
  | and => exact hdata .and d s (by cases sf <;> decide) (by decide) rfl
  | xor => exact hdata .eor d s (by cases sf <;> decide) (by decide) rfl
  | lsh => exact hdata .lslv d s (by cases sf <;> decide) (by decide) rfl
  | rsh => exact hdata .lsrv d s (by cases sf <;> decide) (by decide) rfl
  | arsh => exact hdata .asrv d s (by cases sf <;> decide) (by decide) rfl
  | mov =>
    refine hdata .orr 31 s (by cases sf <;> decide) (by decide) ?_
    rw [c.get_zero]
    exact BitVec.zero_or
  | neg =>
    refine hdata .sub 31 d (by cases sf <;> decide) (by decide) ?_
    rw [c.get_zero]
    exact (addWithCarry_sub _ _).trans (BitVec.zero_sub _)
  | mul =>
    have hop : IsMultiply (opcode sf 0x1B007C00) false sf 31 := by cases sf <;> decide
    have hmul := writes_multiply (decode_rrr_multiply hop d d s) hd c
    rw [if_neg Bool.false_ne_true, c.get_zero] at hmul
    have hzero : 0 + c.get sf d * c.get sf s = c.get sf d * c.get sf s := BitVec.zero_add _
    rw [hzero] at hmul
    exact hmul.mono hsub
  | mod =>
    have hdiv : IsData (opcode sf 0x1AC00800) .udiv sf := by cases sf <;> decide
    have hop : IsMultiply (opcode sf 0x1B008000) true sf 0 := by cases sf <;> decide
    have hquot := writes_data hdiv (by decide) (d := 12) (by decide) d s c
    refine Writes.append hquot (by simp) fun c₁ h₁ hsame => ?_
    have hmsub := writes_multiply (decode_rrrr hop d 12 s d) hd c₁
    -- the quotient is in `X12`, the operands are where they were
    have hx12 : c₁.get sf 12 = DataOp.udiv.eval (c.get sf d) (c.get sf s) := by
      have hget : c₁.get sf 12 = (c₁.x 12).setWidth (width sf) := rfl
      rw [hget, h₁]
      cases sf <;> exact BitVec.setWidth_setWidth_of_le _ (by decide)
    have hget : ∀ r : Reg, r ≠ 31 → r ≠ 12 → c₁.get sf r = c.get sf r := by
      intro r hr hr12
      unfold Cpu.get
      rw [if_neg hr, if_neg hr, hsame.x r hr12]
    rw [if_pos rfl, hx12, hget d hd hd12, hget s hs hs12, sub_mul_udiv] at hmsub
    exact hmsub.mono hsub

/-! ### Immediate operands -/

/-- The immediate of `ADD` and `SUB`. -/
theorem setWidth_imm12 {v : U64} (h : 0 ≤ v.toInt ∧ v.toInt < 4096) {w : ℕ} (hw : 12 ≤ w) :
    ((v.setWidth 16).setWidth 12).setWidth w = v.setWidth w := by
  have hlt : v.toNat < 4096 := by
    have hint := BitVec.toInt_eq_toNat_cond v
    have := v.isLt
    split_ifs at hint <;> omega
  have hpow : 2 ^ 12 ≤ 2 ^ w := Nat.pow_le_pow_right (by omega) hw
  refine BitVec.eq_of_toNat_eq ?_
  simp only [BitVec.toNat_setWidth]
  rw [Nat.mod_eq_of_lt (a := v.toNat) (b := 2 ^ 16) (by omega), Nat.mod_eq_of_lt (a := v.toNat) hlt]

/-- `ADD` and `SUB` with an immediate. -/
theorem writes_addImm (sf sub : Bool) {d : Reg} (hd : d ≠ 31) {v : U64}
    (h : 0 ≤ v.toInt ∧ v.toInt < 4096) (c : Cpu) :
    Writes [rri12 (opcode sf (if sub then 0x51000000 else 0x11000000)) (d.setWidth 8)
        (d.setWidth 8) (v.setWidth 16)] {d} c d
      ((aluResult (if sub then .sub else .add) (c.get sf d)
        (v.setWidth (width sf))).setWidth 64) := by
  have hop : IsAddImm (opcode sf (if sub then 0x51000000 else 0x11000000)) sub sf := by
    cases sf <;> cases sub <;> decide
  refine Writes.word (decode_rri12 hop d d _) rfl hd ?_
  have hx : c.get sf d = (c.x d).setWidth (width sf) := by rw [Cpu.get, if_neg hd]
  dsimp only [Instr.exec]
  rw [setWidth_imm12 h (by cases sf <;> decide), Cpu.set, if_neg hd, hx]
  cases sub <;> rfl

/-- An immediate in `X9`. -/
theorem writes_fallback (sf : Bool) (op : AluOp) {d : Reg} (hd : d ≠ 31) (hd9 : d ≠ 9)
    (hd12 : d ≠ 12) (v : U64) (c : Cpu) :
    Writes (emitLoadImm64 tmp v ++ regWords sf op d 9) {d, 9, 12} c d
      ((aluResult op (c.get sf d) (v.setWidth (width sf))).setWidth 64) := by
  refine Writes.append (writes_loadImm64 (d := 9) (by decide) v c) (by simp) fun c₁ h₁ hsame => ?_
  have hreg := writes_regWords sf op hd hd12 (s := 9) (by decide) (by decide) c₁
  have hx9 : c₁.get sf 9 = v.setWidth (width sf) := by
    rw [← h₁]
    rfl
  have hxd : c₁.get sf d = c.get sf d := by
    unfold Cpu.get
    rw [if_neg hd, if_neg hd, hsame.x d hd9]
  rw [hx9, hxd] at hreg
  exact hreg.mono (by intro r; simp; tauto)

/-! ### Shifts by an immediate -/

/-- A mask of six bits. -/
theorem and63 (b : U8) : b &&& 63 = (b.setWidth 6).setWidth 8 :=
  Fields.and_mask b (k := 6) (by decide)

/-- The shift of an immediate. -/
theorem shift_toNat (v : U64) : ((v &&& 63).setWidth 8).toNat = v.toNat % 64 := by
  have hmask : (v &&& 63).toNat = v.toNat % 64 := by
    rw [BitVec.toNat_and]
    exact Nat.and_two_pow_sub_one_eq_mod v.toNat 6
  rw [BitVec.toNat_setWidth, hmask, Nat.mod_eq_of_lt (by omega)]

theorem bitfieldMove_lsr (src : U64) {k : ℕ} (hk : k < 64) :
    bitfieldMove false src k 63 = src >>> k := by
  have hle : k ≤ 63 := by omega
  have hlen : 63 - k + 1 = 64 - k := by omega
  unfold bitfieldMove extendBits
  rw [if_pos hle, if_neg Bool.false_ne_true, hlen]
  refine BitVec.eq_of_getLsbD_eq fun j hj => ?_
  rw [BitVec.getLsbD_setWidth, BitVec.getLsbD_extractLsb', BitVec.getLsbD_ushiftRight]
  by_cases hlt : j < 64 - k
  · simp [hj, hlt]
  · simp [hlt, BitVec.getLsbD_of_ge src (k + j) (by omega)]

theorem bitfieldMove_asr (src : U64) {k : ℕ} (hk : k < 64) :
    bitfieldMove true src k 63 = src.sshiftRight k := by
  have hle : k ≤ 63 := by omega
  have hlen : 63 - k + 1 = 64 - k := by omega
  -- both sides repeat the highest bit
  have hmsb : (src.extractLsb' k (64 - k)).msb = src.msb := by
    have hlast : k + (64 - k - 1) = 63 := by omega
    have hlt : 64 - k - 1 < 64 - k := by omega
    rw [BitVec.msb_eq_getLsbD_last, BitVec.msb_eq_getLsbD_last, BitVec.getLsbD_extractLsb', hlast,
      decide_eq_true hlt, Bool.true_and]
  unfold bitfieldMove extendBits
  rw [if_pos hle, if_pos rfl, hlen]
  refine BitVec.eq_of_getLsbD_eq fun j hj => ?_
  rw [BitVec.getLsbD_signExtend, BitVec.getLsbD_sshiftRight, BitVec.getLsbD_extractLsb', hmsb]
  by_cases hlt : j < 64 - k
  · have hlt' : k + j < 64 := by omega
    simp [hj, hlt, hlt', not_le.2 hj]
  · have hlt' : ¬ k + j < 64 := by omega
    simp [hj, hlt, hlt', not_le.2 hj]

theorem bitfieldMove_lsl (src : U64) {k : ℕ} (hk : k < 64) :
    bitfieldMove false src ((64 - k) % 64) (63 - k) = src <<< k := by
  unfold bitfieldMove extendBits
  by_cases hzero : k = 0
  · subst hzero
    rw [if_pos (by decide), if_neg Bool.false_ne_true]
    refine BitVec.eq_of_getLsbD_eq fun j hj => ?_
    simp [hj]
  · have hmod : (64 - k) % 64 = 64 - k := Nat.mod_eq_of_lt (by omega)
    have hlen : 63 - k + 1 = 64 - k := by omega
    have hshift : 64 - (64 - k) = k := by omega
    rw [hmod, if_neg (by omega), if_neg Bool.false_ne_true, hlen, hshift]
    refine BitVec.eq_of_getLsbD_eq fun j hj => ?_
    rw [BitVec.getLsbD_shiftLeft, BitVec.getLsbD_shiftLeft, BitVec.getLsbD_setWidth,
      BitVec.getLsbD_extractLsb']
    have hoff : j - k < 64 := by omega
    by_cases hlt : j < k
    · simp [hlt]
    · have hoff' : j - k < 64 - k := by omega
      simp [hoff, hoff']

/-- `LSL`, `LSR` and `ASR` by an immediate. -/
theorem writes_bitfield {w : U32} {signed : Bool} {d : Reg} {immr imms : BitVec 6}
    (h : decode w = some (.bitfield signed d d immr imms)) (hd : d ≠ 31) (c : Cpu) :
    Writes [w] {d} c d (bitfieldMove signed (c.x d) immr.toNat imms.toNat) := by
  refine Writes.word h rfl hd ?_
  dsimp only [Instr.exec]
  rw [c.get_true hd]

variable {ε : Type} [Profile]

theorem writes_lsl {d : Reg} (hd : d ≠ 31) (v : U64) :
    ∃ w, lslXImm (ε := ε) (d.setWidth 8) (d.setWidth 8) ((v &&& 63).setWidth 8) = .ok w ∧
      ∀ c : Cpu, Writes [w] {d} c d (c.x d <<< (v.toNat % 64)) := by
  have hk : v.toNat % 64 < 64 := Nat.mod_lt _ (by decide)
  refine ⟨_, lslXImm_eq _ _ v, fun c => ?_⟩
  have hshift := shift_toNat v
  generalize (v &&& 63).setWidth 8 = shift at hshift ⊢
  have hop : IsBitfield 0xD3400000 false 0 := by decide
  have hword := writes_bitfield (decode_bitfield hop d d ((64 - shift).setWidth 6)
    ((63 - shift).setWidth 6)) hd c
  have himmr : ((64 - shift).setWidth 6).toNat = (64 - v.toNat % 64) % 64 := by
    rw [BitVec.toNat_setWidth, BitVec.toNat_sub, hshift]
    have h64 : (64 : U8).toNat = 64 := rfl
    omega
  have himms : ((63 - shift).setWidth 6).toNat = 63 - v.toNat % 64 := by
    rw [BitVec.toNat_setWidth, BitVec.toNat_sub, hshift]
    have h63 : (63 : U8).toNat = 63 := rfl
    omega
  rw [himmr, himms, bitfieldMove_lsl _ hk] at hword
  rw [and63, and63]
  exact hword

omit [Profile] in
theorem writes_shr (signed : Bool) {d : Reg} (hd : d ≠ 31) (v : U64) (c : Cpu) :
    Writes [rrr (if signed then 0x9340FC00 else 0xD340FC00) (d.setWidth 8) (d.setWidth 8)
        ((v &&& 63).setWidth 8 &&& 63)] {d} c d
      (if signed then (c.x d).sshiftRight (v.toNat % 64) else c.x d >>> (v.toNat % 64)) := by
  have hk : v.toNat % 64 < 64 := Nat.mod_lt _ (by decide)
  have hop : IsBitfield (if signed then 0x9340FC00 else 0xD340FC00) signed 63 := by
    cases signed <;> decide
  have hword := writes_bitfield (decode_rrr_bitfield hop d d (((v &&& 63).setWidth 8).setWidth 6))
    hd c
  have himmr : (((v &&& 63).setWidth 8).setWidth 6).toNat = v.toNat % 64 := by
    rw [BitVec.toNat_setWidth, shift_toNat]
    omega
  have himms : (63 : BitVec 6).toNat = 63 := rfl
  rw [himmr, himms] at hword
  rw [and63]
  cases signed with
  | false =>
    rw [bitfieldMove_lsr _ hk] at hword
    exact hword
  | true =>
    rw [bitfieldMove_asr _ hk] at hword
    exact hword

/-! ### Nodes -/

/-- An immediate, or a register other than `X9`, `X12` and 31. -/
def FreeOperand : Operand → Prop
  | .imm _ => True
  | .reg p => ∃ s : Reg, s ≠ 9 ∧ s ≠ 12 ∧ s ≠ 31 ∧ p = physOf s

omit [Profile] in
theorem FreeOperand.reg {src : Operand} (h : FreeOperand src) :
    ∀ p, src = .reg p → ∃ s : Reg, p = physOf s := by
  rintro p rfl
  obtain ⟨s, -, -, -, hs⟩ := h
  exact ⟨s, hs⟩

omit [Profile] in
theorem operandVal_physOf (c : Cpu) (s : Reg) : operandVal c (.reg (physOf s)) = c.x s := by
  have hnum : (s.setWidth 8).setWidth 5 = s :=
    (BitVec.setWidth_setWidth_of_le s (by decide)).trans (BitVec.setWidth_eq s)
  exact congrArg c.x hnum

section

variable {d : Reg}

omit [Profile] in
/-- What the lemmas above write, for 64 bits. -/
theorem aluResult_width (hd : d ≠ 31) (c : Cpu) (op : AluOp) (v : U64) :
    (aluResult op (c.get true d) (v.setWidth (width true))).setWidth 64 =
      aluResult op (c.x d) v := by
  rw [c.get_true hd]
  exact (BitVec.setWidth_eq _).trans (congrArg (aluResult op (c.x d)) (BitVec.setWidth_eq v))

omit [Profile] in
theorem writes_regWords_x64 (op : AluOp) {s : Reg} (hd : d ≠ 31) (hd12 : d ≠ 12) (hs12 : s ≠ 12)
    (hs : s ≠ 31) (c : Cpu) :
    Writes (regWords true op d s) {d, 9, 12} c d (aluResult op (c.x d) (c.x s)) := by
  have hsub : ({d, 12} : Set Reg) ⊆ {d, 9, 12} := by intro r; simp; tauto
  have hget : c.get true s = (c.x s).setWidth (width true) := by rw [Cpu.get, if_neg hs]
  rw [← aluResult_width hd, ← hget]
  exact (writes_regWords true op hd hd12 hs hs12 c).mono hsub

/-- An immediate in `X9`. -/
theorem emitAlu64Node_fallback (op : AluOp) (hd9 : d ≠ 9) (hd12 : d ≠ 12) (hd : d ≠ 31) (v : U64) :
    ∃ ws, (do
        let ws' ← emitAlu64Node (ε := ε) op (physOf d) (.reg tmp)
        pure (emitLoadImm64 tmp v ++ ws')) = .ok ws ∧
      ∀ c : Cpu, Writes ws {d, 9, 12} c d (aluResult op (c.x d) v) := by
  have hemit := emitAlu64Node_eq_regWords (ε := ε) op d 9
  refine ⟨emitLoadImm64 tmp v ++ regWords true op d 9, ?_, fun c => ?_⟩
  · rw [show (tmp : PhysReg) = physOf 9 from rfl, hemit]
    rfl
  · rw [← aluResult_width hd]
    exact writes_fallback true op hd hd9 hd12 v c

/-- An immediate of 12 bits is added by one instruction, any other one goes through `X9`. -/
theorem writes_addSub64 (sub : Bool) (hd9 : d ≠ 9) (hd12 : d ≠ 12) (hd : d ≠ 31) (v : U64) :
    ∃ ws, emitAlu64Node (ε := ε) (if sub then .sub else .add) (physOf d) (.imm v) = .ok ws ∧
      ∀ c : Cpu, Writes ws {d, 9, 12} c d
        (aluResult (if sub then .sub else .add) (c.x d) v) := by
  by_cases hv : 0 ≤ v.toInt ∧ v.toInt < 4096
  · refine ⟨[rri12 (opcode true (if sub then 0x51000000 else 0x11000000)) (d.setWidth 8)
      (d.setWidth 8) (v.setWidth 16)], ?_, fun c => ?_⟩
    · cases sub with
      | false =>
        rw [if_neg Bool.false_ne_true, emitAlu64Node]
        · rw [if_pos ⟨rfl, hv⟩]
          rfl
        all_goals simp
      | true =>
        rw [if_pos rfl, emitAlu64Node]
        · rw [if_neg (by simp), if_pos ⟨rfl, hv⟩]
          rfl
        all_goals simp
    · rw [← aluResult_width hd]
      exact (writes_addImm true sub hd hv c).mono (by simp)
  · obtain ⟨ws, hws, hwrites⟩ := emitAlu64Node_fallback (ε := ε) (if sub then .sub else .add) hd9
      hd12 hd v
    refine ⟨ws, ?_, hwrites⟩
    cases sub with
    | false =>
      rw [if_neg Bool.false_ne_true] at hws ⊢
      rw [emitAlu64Node]
      · rw [if_neg (fun h => hv h.2), if_neg (by simp)]
        exact hws
      all_goals simp
    | true =>
      rw [if_pos rfl] at hws ⊢
      rw [emitAlu64Node]
      · rw [if_neg (by simp), if_neg (fun h => hv h.2)]
        exact hws
      all_goals simp

end

/-- **64-bit arithmetic.** -/
theorem writes_alu64 (op : AluOp) {d : Reg} (hd9 : d ≠ 9) (hd12 : d ≠ 12) (hd : d ≠ 31)
    {src : Operand} (hsrc : FreeOperand src) :
    ∃ ws, emitAlu64Node (ε := ε) op (physOf d) src = .ok ws ∧
      ∀ c : Cpu, Writes ws {d, 9, 12} c d (aluResult op (c.x d) (operandVal c src)) := by
  have hsub : ({d} : Set Reg) ⊆ {d, 9, 12} := by simp
  cases src with
  | reg p =>
    obtain ⟨s, -, hs12, hs, rfl⟩ := hsrc
    refine ⟨_, emitAlu64Node_eq_regWords op d s, fun c => ?_⟩
    rw [operandVal_physOf]
    exact writes_regWords_x64 op hd hd12 hs12 hs c
  | imm v =>
    cases op with
    | mov =>
      refine ⟨emitLoadImm64 (physOf d) v, by rw [emitAlu64Node]; rfl, fun c => ?_⟩
      exact (writes_loadImm64 hd v c).mono hsub
    | neg =>
      refine ⟨regWords true .neg d d, by rw [emitAlu64Node]; rfl, fun c => ?_⟩
      exact writes_regWords_x64 .neg hd hd12 hd12 hd c
    | lsh =>
      obtain ⟨w, hw, hwrites⟩ := writes_lsl (ε := ε) hd v
      refine ⟨[w], ?_, fun c => (hwrites c).mono hsub⟩
      rw [emitAlu64Node]
      exact congrArg (· >>= fun word => pure [word]) hw
    | rsh =>
      refine ⟨_, by rw [emitAlu64Node]; rfl, fun c => ?_⟩
      exact (writes_shr false hd v c).mono hsub
    | arsh =>
      refine ⟨_, by rw [emitAlu64Node]; rfl, fun c => ?_⟩
      exact (writes_shr true hd v c).mono hsub
    | add => exact writes_addSub64 false hd9 hd12 hd v
    | sub => exact writes_addSub64 true hd9 hd12 hd v
    | mul | div | mod | or | and | xor =>
      obtain ⟨ws, hws, hwrites⟩ := emitAlu64Node_fallback (ε := ε) _ hd9 hd12 hd v
      refine ⟨ws, ?_, hwrites⟩
      rw [emitAlu64Node]
      · rw [if_neg (by simp), if_neg (by simp)]
        exact hws
      all_goals simp

omit [Profile] in
/-- `MOVZ` and, for a value with more than 16 bits, `MOVK`; the upper half is cut off. -/
theorem writes_movW {d : Reg} (hd : d ≠ 31) (v : U64) (c : Cpu) :
    Writes (movzW (physOf d).num (v.setWidth 16) 0 ::
        if 0xFFFF < v.toNat then [movkW (physOf d).num ((v >>> 16).setWidth 16) 1] else []) {d} c d
      ((v.setWidth 32).setWidth 64) := by
  have hlow : insert16 (0 : BitVec 32) (v.setWidth 16) 0 = (v.setWidth 16).setWidth 32 := by
    refine BitVec.eq_of_getLsbD_eq fun j hj => ?_
    rw [getLsbD_insert16 _ _ _ hj]
    split_ifs with h
    · simp [hj]
    · have hge : ¬ j < 16 := by omega
      simp [hge]
  have hhigh : insert16 ((v.setWidth 16).setWidth 32) ((v >>> 16).setWidth 16) 16 =
      v.setWidth 32 := by
    refine BitVec.eq_of_getLsbD_eq fun j hj => ?_
    rw [getLsbD_insert16 _ _ _ hj]
    split_ifs with h
    · have hoff : j - 16 < 16 := by omega
      simp [hj, hoff, Nat.add_sub_cancel' h.1]
    · have hlt : j < 16 := by omega
      simp [hj, hlt]
  have hmovz : Writes [movzW (physOf d).num (v.setWidth 16) 0] {d} c d
      (((v.setWidth 16).setWidth 32).setWidth 64) := by
    have hop : IsMovWide (0x52800000 ||| (((0 : U8).setWidth 32 &&& 1) <<< 21)) false false 0 := by
      decide
    refine Writes.word (decode_movWide hop d _) rfl hd ?_
    rw [← hlow]
    rfl
  split_ifs with hbig
  · refine Writes.append hmovz subset_rfl fun c₁ h₁ _ => ?_
    have hop : IsMovWide (0x72800000 ||| (((1 : U8).setWidth 32 &&& 1) <<< 21)) true false 1 := by
      decide
    refine Writes.word (decode_movWide hop d _) rfl hd ?_
    have hold : c₁.get false d = (v.setWidth 16).setWidth 32 := by
      rw [c₁.get_false hd, h₁]
      exact (BitVec.setWidth_setWidth_of_le _ (by decide)).trans (BitVec.setWidth_eq _)
    dsimp only [Instr.exec]
    rw [if_pos rfl, hold, ← hhigh]
    rfl
  · have hsmall : (v.setWidth 16).setWidth 32 = v.setWidth 32 := by
      refine BitVec.eq_of_toNat_eq ?_
      simp only [BitVec.toNat_setWidth]
      omega
    rw [← hsmall]
    exact hmovz

omit [Profile] in
/-- **32-bit arithmetic.**  The upper half of the destination becomes zero. -/
theorem writes_alu32 (op : AluOp) {d : Reg} (hd9 : d ≠ 9) (hd12 : d ≠ 12) (hd : d ≠ 31)
    {src : Operand} (hsrc : FreeOperand src) (c : Cpu) :
    Writes (emitAlu32Node op (physOf d) src) {d, 9, 12} c d
      ((aluResult op ((c.x d).setWidth 32) ((operandVal c src).setWidth 32)).setWidth 64) := by
  have hsub : ({d} : Set Reg) ⊆ {d, 9, 12} := by simp
  have hsub12 : ({d, 12} : Set Reg) ⊆ {d, 9, 12} := by intro r; simp; tauto
  rw [← c.get_false hd]
  cases src with
  | reg p =>
    obtain ⟨s, -, hs12, hs, rfl⟩ := hsrc
    rw [emitAlu32Node_eq_regWords, operandVal_physOf, ← c.get_false hs]
    exact (writes_regWords false op hd hd12 hs hs12 c).mono hsub12
  | imm v =>
    have hfall := writes_fallback false op hd hd9 hd12 v c
    rw [← emitAlu32Node_eq_regWords] at hfall
    cases op with
    | mov =>
      rw [emitAlu32Node]
      exact (writes_movW hd v c).mono hsub
    | neg =>
      rw [emitAlu32Node]
      exact (writes_regWords false .neg hd hd12 hd hd12 c).mono hsub12
    | add =>
      rw [emitAlu32Node]
      · by_cases hv : 0 ≤ v.toInt ∧ v.toInt < 4096
        · rw [if_pos ⟨rfl, hv⟩]
          exact (writes_addImm false false hd hv c).mono hsub
        · rw [if_neg (fun h => hv h.2), if_neg (by simp)]
          exact hfall
      all_goals simp
    | sub =>
      rw [emitAlu32Node]
      · rw [if_neg (by simp)]
        by_cases hv : 0 ≤ v.toInt ∧ v.toInt < 4096
        · rw [if_pos ⟨rfl, hv⟩]
          exact (writes_addImm false true hd hv c).mono hsub
        · rw [if_neg (fun h => hv h.2)]
          exact hfall
      all_goals simp
    | mul | div | mod | or | and | xor | lsh | rsh | arsh =>
      rw [emitAlu32Node]
      · rw [if_neg (by simp), if_neg (by simp)]
        exact hfall
      all_goals simp

/-! ### The interpreter -/

omit [Profile] in
/-- A result in a register, read as a run of the words. -/
theorem Writes.runs {ws : List U32} {S : Set Reg} {c : Cpu} {d : Reg} {v : U64}
    (h : Writes ws S c d v) : ∃ c', Runs ws c c' ∧ c'.x d = v ∧ SameOutside S c c' := by
  obtain ⟨c', hline, hv, hsame⟩ := h
  exact ⟨c', hline.runs, hv, hsame⟩

/-- **Arithmetic words compute what the interpreter computes**, where negation wraps. -/
theorem emitAlu_eq_eval (op : AluOp) {d : Reg} (hd9 : d ≠ 9) (hd12 : d ≠ 12)
    (hd : d ≠ 31) {src : Operand} (hsrc : FreeOperand src) :
    (∃ ws, emitAlu64Node (ε := AArch64EmitError) op (physOf d) src = .ok ws ∧
      ∀ c : Cpu, ∃ v c', @evalAlu64 release op (c.x d) (operandVal c src) = .ok v ∧
        Runs ws c c' ∧ c'.x d = v ∧ SameOutside {d, 9, 12} c c') ∧
    ∀ c : Cpu, ∃ v c',
      @evalAlu32 release op ((c.x d).setWidth 32) ((operandVal c src).setWidth 32) = .ok v ∧
        Runs (emitAlu32Node op (physOf d) src) c c' ∧ c'.x d = v.setWidth 64 ∧
        SameOutside {d, 9, 12} c c' := by
  constructor
  · obtain ⟨ws, hemit, hwrites⟩ := writes_alu64 op hd9 hd12 hd hsrc
    refine ⟨ws, hemit, fun c => ?_⟩
    obtain ⟨c', hruns, hv, hsame⟩ := (hwrites c).runs
    exact ⟨_, c', evalAlu64_eq op _ _, hruns, hv, hsame⟩
  · intro c
    obtain ⟨c', hruns, hv, hsame⟩ := (writes_alu32 op hd9 hd12 hd hsrc c).runs
    exact ⟨_, c', evalAlu32_eq op _ _, hruns, hv, hsame⟩

omit [Profile] in
theorem emitAlu_eq_eval_subOne :
    (∃ ws, @emitAlu64Node AArch64EmitError release .sub (physOf 0) (.imm (-1)) = .ok ws ∧
      ∀ c : Cpu, ∃ v c', @evalAlu64 release .sub (c.x 0) (-1) = .ok v ∧
        Runs ws c c' ∧ c'.x 0 = v ∧ SameOutside {0, 9, 12} c c') ∧
    ∀ c : Cpu, ∃ v c',
      @evalAlu32 release .sub ((c.x 0).setWidth 32) ((-1 : U64).setWidth 32) = .ok v ∧
        Runs (emitAlu32Node .sub (physOf 0) (.imm (-1))) c c' ∧
        c'.x 0 = v.setWidth 64 ∧ SameOutside {0, 9, 12} c c' :=
  @emitAlu_eq_eval release .sub 0 (by decide) (by decide) (by decide) (.imm (-1)) trivial

end NVMirror.Aarch64
