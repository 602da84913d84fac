import NVMirror.EbpfCore.Append
import NVMirror.Library.Bytes

/-!
# Encoding instructions

`RawInsn.fromLeBytes` reads a slot from eight bytes, and the decoder reads an instruction from
slots.  `Insn.encode` is the way back.

* `RawInsn.fromLeBytes_toLeBytes`, `RawInsn.toLeBytes_fromLeBytes`: bytes and slots correspond.
* `decodeInsn_encode`: an instruction is read back from its encoding, wherever that stands.
* `decodeProgram_encode`: a program is read back from its encoding.
* `encodable_of_decodeProgram`: the decoder returns instructions that have an encoding.
* `decodeProgram_iff`: which lists of instructions the decoder returns.
-/

namespace NVMirror

open Rust Bytes

/-! ### Bytes -/

/-- Deserialize from a little-endian 8-byte slice. -/
def RawInsn.fromLeBytes (bytes : Fin 8 → U8) : RawInsn where
  opcode := bytes 0
  regs := bytes 1
  off := ofLeBytes 16 [bytes 2, bytes 3]
  imm := ofLeBytes 32 [bytes 4, bytes 5, bytes 6, bytes 7]

/-- The eight bytes of a slot. -/
def RawInsn.toLeBytes (r : RawInsn) : Fin 8 → U8 :=
  ![r.opcode, r.regs, byteAt r.off 0, byteAt r.off 1, byteAt r.imm 0, byteAt r.imm 1,
    byteAt r.imm 2, byteAt r.imm 3]

theorem RawInsn.fromLeBytes_toLeBytes (r : RawInsn) : fromLeBytes r.toLeBytes = r := by
  have hoff : ofLeBytes 16 (leBytes 2 r.off) = r.off := ofLeBytes_leBytes _ (by decide)
  have himm : ofLeBytes 32 (leBytes 4 r.imm) = r.imm := ofLeBytes_leBytes _ (by decide)
  show RawInsn.mk r.opcode r.regs (ofLeBytes 16 (leBytes 2 r.off))
    (ofLeBytes 32 (leBytes 4 r.imm)) = r
  rw [hoff, himm]

theorem RawInsn.toLeBytes_fromLeBytes (bytes : Fin 8 → U8) :
    (fromLeBytes bytes).toLeBytes = bytes := by
  have hoff : ∀ i < 2, byteAt (fromLeBytes bytes).off i = ([bytes 2, bytes 3][i]?).getD 0 :=
    fun i hi => byteAt_ofLeBytes _ (by omega)
  have himm : ∀ i < 4, byteAt (fromLeBytes bytes).imm i =
      ([bytes 4, bytes 5, bytes 6, bytes 7][i]?).getD 0 := fun i hi => byteAt_ofLeBytes _ (by omega)
  funext i
  match i with
  | 0 | 1 => rfl
  | 2 => exact hoff 0 (by decide)
  | 3 => exact hoff 1 (by decide)
  | 4 => exact himm 0 (by decide)
  | 5 => exact himm 1 (by decide)
  | 6 => exact himm 2 (by decide)
  | 7 => exact himm 3 (by decide)

/-! ### Opcodes -/

def AluOp.bits : AluOp → U8
  | .add => bpfAdd
  | .sub => bpfSub
  | .mul => bpfMul
  | .div => bpfDiv
  | .or => bpfOr
  | .and => bpfAnd
  | .lsh => bpfLsh
  | .rsh => bpfRsh
  | .neg => bpfNeg
  | .mod => bpfMod
  | .xor => bpfXor
  | .mov => bpfMov
  | .arsh => bpfArsh

def JmpOp.bits : JmpOp → U8
  | .ja => bpfJa
  | .jeq => bpfJeq
  | .jgt => bpfJgt
  | .jge => bpfJge
  | .jset => bpfJset
  | .jne => bpfJne
  | .jsgt => bpfJsgt
  | .jsge => bpfJsge
  | .jlt => bpfJlt
  | .jle => bpfJle
  | .jslt => bpfJslt
  | .jsle => bpfJsle

def MemWidth.sizeCode : MemWidth → U8
  | .b => bpfB
  | .h => bpfH
  | .w => bpfW
  | .dw => bpfDw

/-- The immediate that names the operation. -/
def AtomicOp.code : AtomicOp → U32
  | .add => bpfAtomicAdd
  | .or => bpfAtomicOr
  | .and => bpfAtomicAnd
  | .xor => bpfAtomicXor
  | .xchg => bpfAtomicXchg
  | .cmpXchg => bpfAtomicCmpxchg
  | .fetchAdd => bpfAtomicAdd ||| bpfAtomicFetch
  | .fetchOr => bpfAtomicOr ||| bpfAtomicFetch
  | .fetchAnd => bpfAtomicAnd ||| bpfAtomicFetch
  | .fetchXor => bpfAtomicXor ||| bpfAtomicFetch

/-- The immediate that names the width. -/
def EndianWidth.code : EndianWidth → I32
  | .bits16 => 16
  | .bits32 => 32
  | .bits64 => 64

namespace Source

/-- The source modifier bit. -/
def bit : Source → U8
  | .imm _ => bpfK
  | .reg _ => bpfX

/-- The register field. -/
def field : Source → BpfReg
  | .imm _ => BpfReg.r0
  | .reg r => r

/-- The immediate field. -/
def short : Source → I32
  | .imm v => v.setWidth 32
  | .reg _ => 0

/-- The source survives encoding: an immediate is the sign extension of its low half. -/
def Fits : Source → Prop
  | .imm v => (v.setWidth 32).signExtend 64 = v
  | .reg _ => True

end Source

/-! ### Instructions -/

/-- A slot with two register fields. -/
def RawInsn.of (opcode : U8) (dst src : BpfReg) (off : I16) (imm : I32) : RawInsn where
  opcode := opcode
  regs := (BitVec.ofNat 8 src <<< 4) ||| BitVec.ofNat 8 dst
  off := off
  imm := imm

namespace Insn

/-- The second operand of ALU instructions and conditional jumps. -/
def source : Insn → Option Source
  | .alu64 _ _ src | .alu32 _ _ src | .jmpCond _ _ src _ | .jmpCond32 _ _ src _ => some src
  | _ => none

/-- The slots of an instruction; a tail call has none. -/
def encode : Insn → List RawInsn
  | .alu64 op dst src => [.of (bpfAlu64 ||| op.bits ||| src.bit) dst src.field 0 src.short]
  | .alu32 op dst src => [.of (bpfAlu ||| op.bits ||| src.bit) dst src.field 0 src.short]
  | .load width dst src off => [.of (bpfLdx ||| width.sizeCode ||| bpfMem) dst src off 0]
  | .storeReg width dst src off => [.of (bpfStx ||| width.sizeCode ||| bpfMem) dst src off 0]
  | .storeImm width dst off imm => [.of (bpfSt ||| width.sizeCode ||| bpfMem) dst BpfReg.r0 off imm]
  | .loadImm64 dst imm =>
    [.of (bpfLd ||| bpfDw ||| bpfImm) dst BpfReg.r0 0 (imm.setWidth 32),
      .of 0 BpfReg.r0 BpfReg.r0 0 ((imm >>> 32).setWidth 32)]
  | .jmpCond op dst src off => [.of (bpfJmp ||| op.bits ||| src.bit) dst src.field off src.short]
  | .jmpCond32 op dst src off =>
    [.of (bpfJmp32 ||| op.bits ||| src.bit) dst src.field off src.short]
  | .ja off => [.of (bpfJmp ||| bpfJa) BpfReg.r0 BpfReg.r0 off 0]
  | .call funcId => [.of (bpfJmp ||| bpfCall) BpfReg.r0 BpfReg.r0 0 funcId]
  | .tailCall => []
  | .exit => [.of (bpfJmp ||| bpfExit) BpfReg.r0 BpfReg.r0 0 0]
  | .atomic width op dst src off =>
    [.of (bpfStx ||| width.sizeCode ||| bpfAtomic) dst src off op.code]
  | .endian toBe width dst =>
    [.of (bpfAlu ||| bpfEnd ||| if toBe then bpfX else bpfK) dst BpfReg.r0 0 width.code]

/-- The source of the instruction, when it has one, survives encoding. -/
def SourceFits (insn : Insn) : Prop := ∀ src, insn.source = some src → src.Fits

/-- The instructions that have an encoding. -/
structure Encodable (insn : Insn) : Prop extends insn.FromWire where
  source_fits : insn.SourceFits

end Insn

/-! ### Decoding an encoding -/

section Decoding

variable {opcode : U8} {dst src : BpfReg} {off : I16} {imm : I32} {pc : ℕ}

theorem decodeReg_of (opcode : U8) (dst src : BpfReg) (off : I16) (imm : I32) (pc : ℕ) :
    decodeReg (RawInsn.of opcode dst src off imm).dstReg pc = .ok dst ∧
      decodeReg (RawInsn.of opcode dst src off imm).srcReg pc = .ok src := by
  have hfields : ∀ dst src : BpfReg,
      BpfReg.fromRaw (((BitVec.ofNat 8 src <<< 4) ||| BitVec.ofNat 8 dst) &&& 0x0f) = some dst ∧
        BpfReg.fromRaw ((((BitVec.ofNat 8 src <<< 4) ||| BitVec.ofNat 8 dst) >>> 4) &&& 0x0f) =
          some src := by
    decide +kernel
  obtain ⟨hdst, hsrc⟩ := hfields dst src
  exact ⟨okOr_eq_ok.2 hdst, okOr_eq_ok.2 hsrc⟩

/-- The source modifier bit and the operand fields give the operand. -/
theorem decodeSource_of (dst : BpfReg) {src : Source} (hsrc : src.Fits)
    (hbit : opcode &&& bpfX = src.bit) (off : I16) (pc : ℕ) :
    decodeSource (.of opcode dst src.field off src.short) pc = .ok src := by
  unfold decodeSource
  cases src with
  | imm v =>
    have hx : ¬ opcode &&& bpfX ≠ 0 := by
      rw [hbit]
      exact not_not.2 rfl
    refine (if_neg hx).trans ?_
    exact congrArg (fun v => (.ok (.imm v) : Rust DecodeError Source)) hsrc
  | reg r =>
    have hx : opcode &&& bpfX ≠ 0 := by
      rw [hbit]
      show bpfX ≠ 0
      decide
    refine (if_pos hx).trans ?_
    rw [(decodeReg_of _ _ _ _ _ _).2]
    rfl

/-- The slot at the given position is `r`. -/
theorem decodeInsn_of_get {raw : List RawInsn} {r : RawInsn} (h : raw[pc]? = some r) :
    decodeInsn raw pc =
      (if r.insnClass = bpfAlu64 then do let insn ← decodeAlu r pc true; pure (insn, 1)
      else if r.insnClass = bpfAlu then do let insn ← decodeAlu r pc false; pure (insn, 1)
      else if r.insnClass = bpfJmp then do let insn ← decodeJmp r pc; pure (insn, 1)
      else if r.insnClass = bpfJmp32 then do let insn ← decodeJmp32 r pc; pure (insn, 1)
      else if r.insnClass = bpfLdx then do let insn ← decodeLdx r pc; pure (insn, 1)
      else if r.insnClass = bpfStx then do let insn ← decodeStx r pc; pure (insn, 1)
      else if r.insnClass = bpfSt then do let insn ← decodeSt r pc; pure (insn, 1)
      else if r.insnClass = bpfLd then do let insn ← decodeLddw raw r pc; pure (insn, 2)
      else fail (.unknownOpcode pc r.opcode)) := by
  unfold decodeInsn
  rw [index_of_getElem? h]
  rfl

theorem Source.bit_cases (src : Source) : src.bit = bpfK ∨ src.bit = bpfX := by
  cases src with
  | imm v => exact Or.inl rfl
  | reg r => exact Or.inr rfl

/-- The opcode of an ALU instruction. -/
theorem aluOpcode_bits {cls m : U8} (hcls : cls = bpfAlu64 ∨ cls = bpfAlu)
    (hm : m = bpfK ∨ m = bpfX) (op : AluOp) :
    (cls ||| op.bits ||| m) &&& 0x07 = cls ∧ (cls ||| op.bits ||| m) &&& 0xf0 ≠ bpfEnd ∧
      AluOp.fromOpcodeBits (cls ||| op.bits ||| m) = some op ∧
      (cls ||| op.bits ||| m) &&& bpfX = m := by
  rcases hcls with rfl | rfl <;> rcases hm with rfl | rfl <;> cases op <;> decide

/-- The opcode of a conditional jump. -/
theorem jmpOpcode_bits {cls m : U8} (hcls : cls = bpfJmp ∨ cls = bpfJmp32)
    (hm : m = bpfK ∨ m = bpfX) (op : JmpOp) :
    (cls ||| op.bits ||| m) &&& 0x07 = cls ∧
      (op ≠ .ja → (cls ||| op.bits ||| m) &&& 0xf0 ≠ bpfJa) ∧
      (cls ||| op.bits ||| m) &&& 0xf0 ≠ bpfCall ∧ (cls ||| op.bits ||| m) &&& 0xf0 ≠ bpfExit ∧
      JmpOp.fromOpcodeBits (cls ||| op.bits ||| m) = some op ∧
      (cls ||| op.bits ||| m) &&& bpfX = m := by
  rcases hcls with rfl | rfl <;> rcases hm with rfl | rfl <;> cases op <;> decide

/-- The opcode of a memory access. -/
theorem memOpcode_bits {cls mode : U8} (hcls : cls = bpfLdx ∨ cls = bpfStx ∨ cls = bpfSt)
    (hmode : mode = bpfMem ∨ mode = bpfAtomic) (width : MemWidth) :
    (cls ||| width.sizeCode ||| mode) &&& 0x07 = cls ∧
      (cls ||| width.sizeCode ||| mode) &&& 0xe0 = mode ∧
      MemWidth.fromSizeCode (cls ||| width.sizeCode ||| mode) = some width := by
  rcases hcls with rfl | rfl | rfl <;> rcases hmode with rfl | rfl <;> cases width <;> decide

theorem decodeAlu_of {cls : U8} (hcls : cls = bpfAlu64 ∨ cls = bpfAlu) (op : AluOp) (dst : BpfReg)
    {src : Source} (hsrc : src.Fits) (pc : ℕ) (is64 : Bool) :
    decodeAlu (.of (cls ||| op.bits ||| src.bit) dst src.field 0 src.short) pc is64 =
      .ok (if is64 then .alu64 op dst src else .alu32 op dst src) := by
  obtain ⟨-, hend, hop, hbit⟩ := aluOpcode_bits hcls src.bit_cases op
  unfold decodeAlu
  dsimp only
  rw [(decodeReg_of _ _ _ _ _ _).1, ok_bind]
  refine (if_neg hend).trans ?_
  rw [decodeSource_of dst hsrc hbit]
  show (okOr (AluOp.fromOpcodeBits (cls ||| op.bits ||| src.bit)) _ >>= _) = _
  rw [hop]
  cases is64 <;> rfl

theorem decodeEndian_of (toBe : Bool) (width : EndianWidth) (dst : BpfReg) (pc : ℕ) (is64 : Bool) :
    decodeAlu (.of (bpfAlu ||| bpfEnd ||| if toBe then bpfX else bpfK) dst BpfReg.r0 0 width.code)
      pc is64 = .ok (.endian toBe width dst) := by
  have hend : (bpfAlu ||| bpfEnd ||| if toBe then bpfX else bpfK) &&& 0xf0 = bpfEnd := by
    cases toBe <;> decide
  have hbit : decide ((bpfAlu ||| bpfEnd ||| if toBe then bpfX else bpfK) &&& bpfX ≠ 0) = toBe := by
    cases toBe <;> decide
  unfold decodeAlu
  dsimp only
  rw [(decodeReg_of _ _ _ _ _ _).1, ok_bind]
  refine (if_pos hend).trans ?_
  unfold RawInsn.of
  dsimp only
  rw [hbit]
  cases width with
  | bits16 => exact if_pos rfl
  | bits32 => exact (if_neg (by decide)).trans (if_pos rfl)
  | bits64 => exact (if_neg (by decide)).trans ((if_neg (by decide)).trans (if_pos rfl))

theorem decodeJmp_of {op : JmpOp} (hop : op ≠ .ja) (dst : BpfReg) {src : Source}
    (hsrc : src.Fits) (off : I16) (pc : ℕ) :
    decodeJmp (.of (bpfJmp ||| op.bits ||| src.bit) dst src.field off src.short) pc =
      .ok (.jmpCond op dst src off) := by
  obtain ⟨-, hja, hcall, hexit, hbits, hbit⟩ := jmpOpcode_bits (Or.inl rfl) src.bit_cases op
  unfold decodeJmp
  refine (if_neg (hja hop)).trans ((if_neg hcall).trans ((if_neg hexit).trans ?_))
  rw [(decodeReg_of _ _ _ _ _ _).1, decodeSource_of dst hsrc hbit]
  show (okOr (JmpOp.fromOpcodeBits (bpfJmp ||| op.bits ||| src.bit)) _ >>= _) = _
  rw [hbits]
  rfl

theorem decodeJmp32_of (op : JmpOp) (dst : BpfReg) {src : Source} (hsrc : src.Fits) (off : I16)
    (pc : ℕ) :
    decodeJmp32 (.of (bpfJmp32 ||| op.bits ||| src.bit) dst src.field off src.short) pc =
      .ok (.jmpCond32 op dst src off) := by
  obtain ⟨-, -, -, -, hbits, hbit⟩ := jmpOpcode_bits (Or.inr rfl) src.bit_cases op
  unfold decodeJmp32
  rw [(decodeReg_of _ _ _ _ _ _).1, decodeSource_of dst hsrc hbit]
  show (okOr (JmpOp.fromOpcodeBits (bpfJmp32 ||| op.bits ||| src.bit)) _ >>= _) = _
  rw [hbits]
  rfl

/-- Both halves of a wide immediate. -/
theorem halves_or (imm : U64) : ((imm.setWidth 32 : I32).setWidth 64 : U64) |||
    ((imm >>> 32).setWidth 32 : I32).setWidth 64 <<< 32 = imm := by
  refine BitVec.eq_of_getLsbD_eq fun i hi => ?_
  rw [BitVec.getLsbD_or, BitVec.getLsbD_shiftLeft]
  simp only [BitVec.getLsbD_setWidth, BitVec.getLsbD_ushiftRight]
  by_cases hlow : i < 32
  · simp [hlow, hi]
  · have hsub : 32 + (i - 32) = i := by omega
    have hrest : i - 32 < 32 ∧ i - 32 < 64 := by omega
    simp [hlow, hi, hsub, hrest]

end Decoding

/-! ### Accesses to memory -/

section Memory

variable {dst src : BpfReg} {off : I16} {imm : I32} {pc : ℕ}

theorem decodeLdx_of (width : MemWidth) (imm : I32) :
    decodeLdx (.of (bpfLdx ||| width.sizeCode ||| bpfMem) dst src off imm) pc =
      .ok (.load width dst src off) := by
  obtain ⟨-, -, hwidth⟩ := memOpcode_bits (Or.inl rfl) (Or.inl rfl) width
  obtain ⟨hdst, hsrc⟩ := decodeReg_of (bpfLdx ||| width.sizeCode ||| bpfMem) dst src off imm pc
  show (okOr (MemWidth.fromSizeCode (bpfLdx ||| width.sizeCode ||| bpfMem)) _ >>= _) = _
  rw [hwidth]
  show (decodeReg _ _ >>= _) = _
  rw [hdst, ok_bind, hsrc]
  rfl

theorem decodeStx_of (width : MemWidth) (imm : I32) :
    decodeStx (.of (bpfStx ||| width.sizeCode ||| bpfMem) dst src off imm) pc =
      .ok (.storeReg width dst src off) := by
  obtain ⟨-, hmode, hwidth⟩ := memOpcode_bits (Or.inr (Or.inl rfl)) (Or.inl rfl) width
  obtain ⟨hdst, hsrc⟩ := decodeReg_of (bpfStx ||| width.sizeCode ||| bpfMem) dst src off imm pc
  have hne : (bpfStx ||| width.sizeCode ||| bpfMem) &&& 0xe0 ≠ bpfAtomic :=
    ne_of_eq_of_ne hmode (by decide)
  show (okOr (MemWidth.fromSizeCode (bpfStx ||| width.sizeCode ||| bpfMem)) _ >>= _) = _
  rw [hwidth]
  show (decodeReg _ _ >>= _) = _
  rw [hdst, ok_bind, hsrc, ok_bind]
  exact if_neg hne

theorem decodeAtomicOp_code (op : AtomicOp) (pc : ℕ) : decodeAtomicOp op.code pc = .ok op := by
  cases op <;> simp [decodeAtomicOp, AtomicOp.code, bpfAtomicAdd, bpfAtomicOr, bpfAtomicAnd,
    bpfAtomicXor, bpfAtomicXchg, bpfAtomicCmpxchg, bpfAtomicFetch]

theorem decodeAtomic_of (width : MemWidth) (op : AtomicOp) :
    decodeStx (.of (bpfStx ||| width.sizeCode ||| bpfAtomic) dst src off op.code) pc =
      .ok (.atomic width op dst src off) := by
  obtain ⟨-, hmode, hwidth⟩ := memOpcode_bits (Or.inr (Or.inl rfl)) (Or.inr rfl) width
  obtain ⟨hdst, hsrc⟩ :=
    decodeReg_of (bpfStx ||| width.sizeCode ||| bpfAtomic) dst src off op.code pc
  show (okOr (MemWidth.fromSizeCode (bpfStx ||| width.sizeCode ||| bpfAtomic)) _ >>= _) = _
  rw [hwidth]
  show (decodeReg _ _ >>= _) = _
  rw [hdst, ok_bind, hsrc, ok_bind]
  refine (if_pos hmode).trans ?_
  show (decodeAtomicOp op.code pc >>= _) = _
  rw [decodeAtomicOp_code]
  rfl

theorem decodeSt_of (width : MemWidth) (src : BpfReg) :
    decodeSt (.of (bpfSt ||| width.sizeCode ||| bpfMem) dst src off imm) pc =
      .ok (.storeImm width dst off imm) := by
  obtain ⟨-, -, hwidth⟩ := memOpcode_bits (Or.inr (Or.inr rfl)) (Or.inl rfl) width
  obtain ⟨hdst, -⟩ := decodeReg_of (bpfSt ||| width.sizeCode ||| bpfMem) dst src off imm pc
  show (okOr (MemWidth.fromSizeCode (bpfSt ||| width.sizeCode ||| bpfMem)) _ >>= _) = _
  rw [hwidth]
  show (decodeReg _ _ >>= _) = _
  rw [hdst]
  rfl

/-- Both slots of a wide instruction. -/
theorem decodeLddw_of {raw : List RawInsn} (hlen : raw.length < 2 ^ 64) (imm : U64)
    (hnext : raw[pc + 1]? =
      some (.of 0 BpfReg.r0 BpfReg.r0 0 ((imm >>> 32).setWidth 32))) :
    decodeLddw raw (.of (bpfLd ||| bpfDw ||| bpfImm) dst src off (imm.setWidth 32)) pc =
      .ok (.loadImm64 dst imm) := by
  have hlt := (List.getElem?_eq_some_iff.1 hnext).1
  have hmode : (bpfLd ||| bpfDw ||| bpfImm) &&& 0xe0 = bpfImm ∧
      (bpfLd ||| bpfDw ||| bpfImm) &&& 0x18 = bpfDw := by
    decide
  unfold decodeLddw
  refine (if_pos hmode).trans ?_
  rw [usizeAdd_of_lt (by omega), ok_bind, if_neg (by omega), index_of_getElem? hnext, ok_bind]
  dsimp only
  rw [(decodeReg_of _ _ _ _ _ _).1]
  exact congrArg (fun v => (.ok (.loadImm64 dst v) : Rust DecodeError Insn)) (halves_or imm)

end Memory

section Program

variable {insn : Insn} {raw : List RawInsn} {pc : ℕ}

theorem insnClass_of (opcode : U8) (dst src : BpfReg) (off : I16) (imm : I32) :
    (RawInsn.of opcode dst src off imm).insnClass = opcode &&& 0x07 := rfl

/-- **An instruction is read back** from its encoding, wherever that stands. -/
theorem decodeInsn_encode (h : insn.Encodable) (hlen : raw.length < 2 ^ 64)
    (hraw : ∀ k r, insn.encode[k]? = some r → raw[pc + k]? = some r) :
    decodeInsn raw pc = .ok (insn, insn.slots) := by
  have hfirst : ∀ r, insn.encode[0]? = some r → raw[pc]? = some r := hraw 0
  cases insn with
  | alu64 op dst src =>
    have hclass := (aluOpcode_bits (Or.inl rfl) src.bit_cases op).1
    rw [decodeInsn_of_get (hfirst _ rfl), insnClass_of, hclass, if_pos rfl,
      decodeAlu_of (Or.inl rfl) op dst (h.source_fits src rfl)]
    rfl
  | alu32 op dst src =>
    have hclass := (aluOpcode_bits (Or.inr rfl) src.bit_cases op).1
    rw [decodeInsn_of_get (hfirst _ rfl), insnClass_of, hclass, if_neg (by decide), if_pos rfl,
      decodeAlu_of (Or.inr rfl) op dst (h.source_fits src rfl)]
    rfl
  | endian toBe width dst =>
    have hclass : (bpfAlu ||| bpfEnd ||| if toBe then bpfX else bpfK) &&& 0x07 = bpfAlu := by
      cases toBe <;> decide
    rw [decodeInsn_of_get (hfirst _ rfl), insnClass_of, hclass, if_neg (by decide), if_pos rfl,
      decodeEndian_of]
    rfl
  | jmpCond op dst src off =>
    have hclass := (jmpOpcode_bits (Or.inl rfl) src.bit_cases op).1
    rw [decodeInsn_of_get (hfirst _ rfl), insnClass_of, hclass, if_neg (by decide),
      if_neg (by decide), if_pos rfl,
      decodeJmp_of (h.jmpCond_ne_ja op dst src off rfl) dst (h.source_fits src rfl)]
    rfl
  | jmpCond32 op dst src off =>
    have hclass := (jmpOpcode_bits (Or.inr rfl) src.bit_cases op).1
    rw [decodeInsn_of_get (hfirst _ rfl), insnClass_of, hclass, if_neg (by decide),
      if_neg (by decide), if_neg (by decide), if_pos rfl,
      decodeJmp32_of op dst (h.source_fits src rfl)]
    rfl
  | ja off =>
    have hclass : (bpfJmp ||| bpfJa) &&& 0x07 = bpfJmp := by decide
    have hja : (bpfJmp ||| bpfJa) &&& 0xf0 = bpfJa := by decide
    rw [decodeInsn_of_get (hfirst _ rfl), insnClass_of, hclass, if_neg (by decide),
      if_neg (by decide), if_pos rfl, decodeJmp]
    exact congrArg (· >>= _) (if_pos hja)
  | call funcId =>
    have hclass : (bpfJmp ||| bpfCall) &&& 0x07 = bpfJmp := by decide
    have hja : (bpfJmp ||| bpfCall) &&& 0xf0 ≠ bpfJa := by decide
    have hcall : (bpfJmp ||| bpfCall) &&& 0xf0 = bpfCall := by decide
    rw [decodeInsn_of_get (hfirst _ rfl), insnClass_of, hclass, if_neg (by decide),
      if_neg (by decide), if_pos rfl, decodeJmp]
    exact congrArg (· >>= _) ((if_neg hja).trans (if_pos hcall))
  | exit =>
    have hclass : (bpfJmp ||| bpfExit) &&& 0x07 = bpfJmp := by decide
    rw [decodeInsn_of_get (hfirst _ rfl), insnClass_of, hclass, if_neg (by decide),
      if_neg (by decide), if_pos rfl, decodeJmp]
    exact congrArg (· >>= _)
      ((if_neg (by decide)).trans ((if_neg (by decide)).trans (if_pos (by decide))))
  | load width dst src off =>
    have hclass := (memOpcode_bits (Or.inl rfl) (Or.inl rfl) width).1
    rw [decodeInsn_of_get (hfirst _ rfl), insnClass_of, hclass, if_neg (by decide),
      if_neg (by decide), if_neg (by decide), if_neg (by decide), if_pos rfl, decodeLdx_of]
    rfl
  | storeReg width dst src off =>
    have hclass := (memOpcode_bits (Or.inr (Or.inl rfl)) (Or.inl rfl) width).1
    rw [decodeInsn_of_get (hfirst _ rfl), insnClass_of, hclass, if_neg (by decide),
      if_neg (by decide), if_neg (by decide), if_neg (by decide), if_neg (by decide), if_pos rfl,
      decodeStx_of]
    rfl
  | atomic width op dst src off =>
    have hclass := (memOpcode_bits (Or.inr (Or.inl rfl)) (Or.inr rfl) width).1
    rw [decodeInsn_of_get (hfirst _ rfl), insnClass_of, hclass, if_neg (by decide),
      if_neg (by decide), if_neg (by decide), if_neg (by decide), if_neg (by decide), if_pos rfl,
      decodeAtomic_of]
    rfl
  | storeImm width dst off imm =>
    have hclass := (memOpcode_bits (Or.inr (Or.inr rfl)) (Or.inl rfl) width).1
    rw [decodeInsn_of_get (hfirst _ rfl), insnClass_of, hclass, if_neg (by decide),
      if_neg (by decide), if_neg (by decide), if_neg (by decide), if_neg (by decide),
      if_neg (by decide), if_pos rfl, decodeSt_of]
    rfl
  | loadImm64 dst imm =>
    have hclass : (bpfLd ||| bpfDw ||| bpfImm) &&& 0x07 = bpfLd := by decide
    rw [decodeInsn_of_get (hfirst _ rfl), insnClass_of, hclass, if_neg (by decide),
      if_neg (by decide), if_neg (by decide), if_neg (by decide), if_neg (by decide),
      if_neg (by decide), if_neg (by decide), if_pos rfl, decodeLddw_of hlen imm (hraw 1 _ rfl)]
    rfl
  | tailCall => exact absurd rfl h.ne_tailCall

/-! ### Programs -/

theorem length_encode (h : insn.Encodable) : insn.encode.length = insn.slots := by
  cases insn with
  | tailCall => exact absurd rfl h.ne_tailCall
  | _ => rfl

/-- The slots of a program. -/
def encodeProgram (insns : List Insn) : List RawInsn := insns.flatMap Insn.encode

theorem length_encodeProgram {insns : List Insn} (h : ∀ insn ∈ insns, insn.Encodable) :
    (encodeProgram insns).length = (insns.map Insn.slots).sum := by
  unfold encodeProgram
  rw [List.length_flatMap]
  exact congrArg List.sum (List.map_congr_left fun insn hmem => length_encode (h insn hmem))

/-- The decoding loop on an encoded program, behind the slots `pre`. -/
theorem decodeLoop_encode {insns : List Insn} (h : ∀ insn ∈ insns, insn.Encodable)
    (pre : List RawInsn) (acc : List Insn) {fuel : ℕ}
    (hfuel : insns.length ≤ fuel) (hlen : (pre ++ encodeProgram insns).length < 2 ^ 64) :
    decodeLoop (pre ++ encodeProgram insns) fuel pre.length acc = .ok (acc ++ insns) := by
  induction insns generalizing pre acc fuel with
  | nil =>
    have hend : ¬ pre.length < (pre ++ encodeProgram []).length := by
      simp [encodeProgram]
    cases fuel with
    | zero => rw [decodeLoop, if_neg hend, List.append_nil]; rfl
    | succ fuel => rw [decodeLoop, if_neg hend, List.append_nil]; rfl
  | cons insn insns ih =>
    obtain ⟨fuel, rfl⟩ := Nat.exists_eq_add_of_lt hfuel
    have hinsn := h insn List.mem_cons_self
    have hcons : pre ++ encodeProgram (insn :: insns) =
        pre ++ insn.encode ++ encodeProgram insns := by
      rw [List.append_assoc]
      rfl
    have hslots := length_encode hinsn
    have hpos := insn.one_le_slots
    have hlength : (pre ++ insn.encode).length = pre.length + insn.slots := by
      rw [List.length_append, hslots]
    rw [hcons] at hlen ⊢
    have hlt : pre.length < (pre ++ insn.encode ++ encodeProgram insns).length := by
      rw [List.length_append, hlength]
      omega
    have hread : ∀ k r, insn.encode[k]? = some r →
        (pre ++ insn.encode ++ encodeProgram insns)[pre.length + k]? = some r := by
      intro k r hk
      have hk' := (List.getElem?_eq_some_iff.1 hk).1
      rw [List.getElem?_append_left (by omega), List.getElem?_append_right (by omega),
        Nat.add_sub_cancel_left, hk]
    have hroom : pre.length + insn.slots < 2 ^ 64 := by
      rw [List.length_append, hlength] at hlen
      omega
    rw [decodeLoop, if_pos hlt, decodeInsn_encode hinsn hlen hread, ok_bind]
    dsimp only
    rw [usizeAdd_of_lt hroom, ok_bind, ← hlength,
      ih (fun i hi => h i (List.mem_cons_of_mem _ hi)) _ _ (Nat.le_add_right _ _) hlen,
      List.append_assoc]
    rfl

theorem encodeProgram_ne_nil {insns : List Insn} (h : ∀ insn ∈ insns, insn.Encodable)
    (hne : insns ≠ []) : encodeProgram insns ≠ [] := by
  obtain ⟨insn, rest, rfl⟩ := List.exists_cons_of_ne_nil hne
  have hpos := insn.one_le_slots
  rw [← List.length_pos_iff, length_encodeProgram h, List.map_cons, List.sum_cons]
  omega

/-- **The round trip.**  The decoder reads a program back from its encoding. -/
theorem decodeProgram_encode {insns : List Insn} (h : ∀ insn ∈ insns, insn.Encodable)
    (hne : insns ≠ []) (hslots : (insns.map Insn.slots).sum ≤ maxInsns) :
    decodeProgram (encodeProgram insns) = .ok insns := by
  have hlen := length_encodeProgram h
  have hfuel : insns.length ≤ (encodeProgram insns).length := by
    rw [hlen, sum_slots]
    exact Nat.le_add_right _ _
  have hsize : (encodeProgram insns).length < 2 ^ 64 := by
    unfold maxInsns at hslots
    omega
  rw [decodeProgram_eq_loop (encodeProgram_ne_nil h hne) (by omega)]
  exact decodeLoop_encode h [] [] hfuel hsize

end Program

/-! ### What the decoder returns -/

section Decoded

variable {r : RawInsn} {pc : ℕ}

theorem Insn.sourceFits_of_none {insn : Insn} (h : insn.source = none) : insn.SourceFits := by
  intro src hsrc
  rw [h] at hsrc
  cases hsrc

theorem Insn.sourceFits_of_some {insn : Insn} {src : Source} (h : insn.source = some src)
    (hfits : src.Fits) : insn.SourceFits := by
  intro src' hsrc
  rw [h] at hsrc
  cases hsrc
  exact hfits

/-- Anything goes for the value. -/
theorem meets_true {α : Type} (x : Rust DecodeError α) :
    Meets x (fun _ => True) (fun _ => True) := by
  cases x <;> trivial

theorem decodeSource_fits : Meets (decodeSource r pc) Source.Fits (fun _ => True) := by
  unfold decodeSource
  split_ifs
  · exact (meets_true _).bind fun s _ => Meets.ok trivial
  · refine Meets.ok ?_
    have hlow : (r.imm.signExtend 64).setWidth 32 = r.imm := by
      refine BitVec.eq_of_getLsbD_eq fun i hi => ?_
      rw [BitVec.getLsbD_setWidth, BitVec.getLsbD_signExtend]
      simp [hi, show i < 64 by omega]
    exact congrArg (fun v : I32 => v.signExtend 64) hlow

theorem decodeAlu_fits {is64 : Bool} :
    Meets (decodeAlu r pc is64) Insn.SourceFits (fun _ => True) := by
  unfold decodeAlu
  refine (meets_true _).bind fun dst _ => ?_
  split_ifs
  · exact Meets.ok (Insn.sourceFits_of_none rfl)
  · exact Meets.ok (Insn.sourceFits_of_none rfl)
  · exact Meets.ok (Insn.sourceFits_of_none rfl)
  · exact Meets.fail trivial
  all_goals
    refine (meets_true _).bind fun op _ => decodeSource_fits.bind fun src hsrc => ?_
    exact Meets.ok (Insn.sourceFits_of_some rfl hsrc)

theorem decodeJmp_fits : Meets (decodeJmp r pc) Insn.SourceFits (fun _ => True) := by
  unfold decodeJmp
  dsimp only
  split_ifs
  · exact Meets.ok (Insn.sourceFits_of_none rfl)
  · exact Meets.ok (Insn.sourceFits_of_none rfl)
  · exact Meets.ok (Insn.sourceFits_of_none rfl)
  · refine (meets_true _).bind fun op _ => (meets_true _).bind fun dst _ =>
      decodeSource_fits.bind fun src hsrc => ?_
    exact Meets.ok (Insn.sourceFits_of_some rfl hsrc)

theorem decodeJmp32_fits : Meets (decodeJmp32 r pc) Insn.SourceFits (fun _ => True) := by
  refine (meets_true _).bind fun op _ => (meets_true _).bind fun dst _ =>
    decodeSource_fits.bind fun src hsrc => ?_
  exact Meets.ok (Insn.sourceFits_of_some rfl hsrc)

theorem decodeLdx_fits : Meets (decodeLdx r pc) Insn.SourceFits (fun _ => True) := by
  refine (meets_true _).bind fun width _ => (meets_true _).bind fun dst _ =>
    (meets_true _).bind fun src _ => ?_
  exact Meets.ok (Insn.sourceFits_of_none rfl)

theorem decodeStx_fits : Meets (decodeStx r pc) Insn.SourceFits (fun _ => True) := by
  refine (meets_true _).bind fun width _ => (meets_true _).bind fun dst _ =>
    (meets_true _).bind fun src _ => ?_
  split_ifs
  · exact (meets_true _).bind fun op _ => Meets.ok (Insn.sourceFits_of_none rfl)
  · exact Meets.ok (Insn.sourceFits_of_none rfl)

theorem decodeSt_fits : Meets (decodeSt r pc) Insn.SourceFits (fun _ => True) := by
  refine (meets_true _).bind fun width _ => (meets_true _).bind fun dst _ => ?_
  exact Meets.ok (Insn.sourceFits_of_none rfl)

theorem decodeLddw_fits {raw : List RawInsn} :
    Meets (decodeLddw raw r pc) Insn.SourceFits (fun _ => True) := by
  unfold decodeLddw
  dsimp only
  split_ifs
  · refine (meets_true _).bind fun pc1 _ => ?_
    split_ifs
    · exact Meets.fail trivial
    · refine (meets_true _).bind fun next _ => (meets_true _).bind fun dst _ => ?_
      exact Meets.ok (Insn.sourceFits_of_none rfl)
  · exact Meets.fail trivial

theorem decodeInsn_fits (raw : List RawInsn) (pc : ℕ) :
    Meets (decodeInsn raw pc) (fun x => x.1.SourceFits) (fun _ => True) := by
  have hslots : ∀ {m : Rust DecodeError Insn} (n : ℕ), Meets m Insn.SourceFits (fun _ => True) →
      Meets (do let insn ← m; pure (insn, n)) (fun x : Insn × ℕ => x.1.SourceFits)
        (fun _ => True) :=
    fun n h => h.bind fun insn hi => Meets.ok hi
  unfold decodeInsn
  refine (meets_true _).bind fun r _ => ?_
  dsimp only
  split_ifs
  · exact hslots 1 decodeAlu_fits
  · exact hslots 1 decodeAlu_fits
  · exact hslots 1 decodeJmp_fits
  · exact hslots 1 decodeJmp32_fits
  · exact hslots 1 decodeLdx_fits
  · exact hslots 1 decodeStx_fits
  · exact hslots 1 decodeSt_fits
  · exact hslots 2 decodeLddw_fits
  · exact Meets.fail trivial

/-- The decoder returns instructions that have an encoding. -/
theorem encodable_of_decodeProgram {raw : List RawInsn} {insns : List Insn}
    (h : decodeProgram raw = .ok insns) : ∀ insn ∈ insns, insn.Encodable := by
  intro insn hmem
  have hdec := decoded_of_decodeProgram h
  obtain ⟨i, hi⟩ := List.getElem?_of_mem hmem
  obtain ⟨-, hread⟩ := hdec.reads i insn hi
  exact ⟨hdec.fromWire insn hmem, (decodeInsn_fits raw (slotAt raw i)).of_ok hread⟩

/-- **What the decoder returns.**  A list of instructions comes out of the decoder when it is not
empty, each of its instructions has an encoding and their slots fit; it is then read back from the
list's own encoding, which has the slots of every other program that decodes to it. -/
theorem decodeProgram_iff (insns : List Insn) :
    ((∃ raw, decodeProgram raw = .ok insns) ↔
      insns ≠ [] ∧ (∀ insn ∈ insns, insn.Encodable) ∧ (insns.map Insn.slots).sum ≤ maxInsns) ∧
    ∀ raw, decodeProgram raw = .ok insns →
      decodeProgram (encodeProgram insns) = .ok insns ∧
        (encodeProgram insns).length = raw.length := by
  have hparts : ∀ raw, decodeProgram raw = .ok insns →
      insns ≠ [] ∧ (∀ insn ∈ insns, insn.Encodable) ∧
        (insns.map Insn.slots).sum ≤ maxInsns := by
    intro raw h
    refine ⟨(decoded_of_decodeProgram h).ne_nil, encodable_of_decodeProgram h, ?_⟩
    rw [sum_slots_of_decodeProgram h]
    exact raw_length_le h
  refine ⟨⟨fun ⟨raw, h⟩ => hparts raw h, fun ⟨hne, henc, hslots⟩ => ?_⟩, fun raw h => ?_⟩
  · exact ⟨encodeProgram insns, decodeProgram_encode henc hne hslots⟩
  · obtain ⟨hne, henc, hslots⟩ := hparts raw h
    refine ⟨decodeProgram_encode henc hne hslots, ?_⟩
    rw [length_encodeProgram henc, sum_slots_of_decodeProgram h]

end Decoded

end NVMirror
