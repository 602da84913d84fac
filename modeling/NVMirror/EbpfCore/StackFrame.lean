import NVMirror.EbpfCore.Dataflow

/-!
# Accesses through the frame pointer

The verifier admits offsets in `[-512, 0)` from `R10`, whatever the width of the access.  All bytes
of an admitted access lie in the frame exactly if the access ends at or below `R10`
(`stackAccess_inFrame_iff`).
-/

namespace NVMirror

open Rust

/-- The byte at `addr` lies in the frame `[fp - 512, fp)`; addresses are counted modulo `2^64`. -/
def InFrame (fp addr : U64) : Prop := (addr - (fp - BitVec.ofNat 64 stackSize)).toNat < stackSize

instance (fp addr : U64) : Decidable (InFrame fp addr) := inferInstanceAs (Decidable (_ < _))

/-- Address of byte `i` of an access at `fp + off`. -/
def accessByte (fp : U64) (off : I16) (i : ℕ) : U64 :=
  fp + off.signExtend 64 + BitVec.ofNat 64 i

theorem toNat_signExtend_of_neg {off : I16} (h : off.toInt < 0) :
    ((off.signExtend 64).toNat : ℤ) = 2 ^ 64 + off.toInt := by
  have h1 : (off.signExtend 64).toInt = off.toInt := BitVec.toInt_signExtend_of_le (by decide)
  have h2 := BitVec.toInt_eq_toNat_cond (off.signExtend 64)
  have h3 := (off.signExtend 64).isLt
  split_ifs at h2 <;> omega

/-- A byte at a negative offset lies in the frame iff it is below `R10` and not too far down. -/
theorem inFrame_accessByte_iff {fp : U64} {off : I16} {i : ℕ} (hneg : off.toInt < 0)
    (hlow : -(stackSize : ℤ) ≤ off.toInt) (hi : i ≤ 8) :
    InFrame fp (accessByte fp off i) ↔ off.toInt + i < 0 := by
  have hx := toNat_signExtend_of_neg hneg
  unfold InFrame accessByte
  generalize off.signExtend 64 = x at hx
  have hi' : (BitVec.ofNat 64 i).toNat = i := by
    rw [BitVec.toNat_ofNat]
    omega
  have hdiff : fp + x + BitVec.ofNat 64 i - (fp - BitVec.ofNat 64 stackSize) =
      x + BitVec.ofNat 64 i + BitVec.ofNat 64 stackSize := by
    bv_omega
  rw [hdiff, BitVec.toNat_add, BitVec.toNat_add, hi', BitVec.toNat_ofNat]
  unfold stackSize at *
  omega

/-- An access at a checked offset stays in the frame iff it ends at or below `R10`. -/
theorem forall_inFrame_iff {fp : U64} {off : I16} {width : MemWidth} (hneg : off.toInt < 0)
    (hlow : -(stackSize : ℤ) ≤ off.toInt) :
    (∀ i < width.byteLen, InFrame fp (accessByte fp off i)) ↔
      off.toInt + width.byteLen ≤ 0 := by
  have hpos := width.byteLen_pos
  have hle := width.byteLen_le
  constructor
  · intro h
    have hlast := h (width.byteLen - 1) (by omega)
    rw [inFrame_accessByte_iff hneg hlow (by omega)] at hlast
    omega
  · intro h i hi
    rw [inFrame_accessByte_iff hneg hlow (by omega)]
    omega

variable {insns : List Insn}

/-- **Accesses through `R10`.**  In an accepted program, all bytes of a memory access with base
`R10` lie in the frame, for every value of `R10`, exactly if `off + width ≤ 0`. -/
theorem stackAccess_inFrame_iff {n : ℕ} (h : verifyProgram insns = .ok n) {off : I16}
    {width : MemWidth}
    (hacc : ∃ insn ∈ insns, insn.memAccess = some (BpfReg.r10, off, width)) (fp : U64) :
    (∀ i < width.byteLen, InFrame fp (accessByte fp off i)) ↔
      off.toInt + width.byteLen ≤ 0 := by
  obtain ⟨A, hA⟩ := (verified_of_verifyProgram h).certificate
  obtain ⟨insn, hmem, hacc⟩ := hacc
  obtain ⟨pc, hpc⟩ := List.getElem?_of_mem hmem
  obtain ⟨hlow, hneg⟩ := (hA pc insn hpc).stack off width hacc
  exact forall_inFrame_iff hneg hlow

/-- `*(u64 *)(r10 - 1) = 0; r0 = 0; exit`. -/
def storeAcrossR10 : List Insn :=
  [.storeImm .dw BpfReg.r10 (-1) 0, .alu64 .mov BpfReg.r0 (.imm 0), .exit]

/-- `stackAccess_inFrame_iff` at a store that crosses `R10`. -/
theorem stackAccess_inFrame_iff_storeAcrossR10 :
    ¬ ∀ i < 8, InFrame 0x2000 (accessByte 0x2000 (-1) i) := by
  have hok : verifyProgram storeAcrossR10 = .ok 1 := rfl
  have hacc : ∃ insn ∈ storeAcrossR10, insn.memAccess = some (BpfReg.r10, (-1 : I16), .dw) :=
    ⟨_, List.mem_cons_self, rfl⟩
  have h := stackAccess_inFrame_iff hok hacc 0x2000
  exact fun hall => absurd (h.1 hall) (by decide)

/-- **An accepted store leaves the frame.**  Its first byte is the last byte of the frame, the
seven others are at `R10` and above. -/
theorem storeAcrossR10_outside :
    verifyProgram storeAcrossR10 = .ok 1 ∧
      storeAcrossR10[0]? = some (.storeImm .dw BpfReg.r10 (-1) 0) ∧
      ¬ InFrame 0x2000 (accessByte 0x2000 (-1) 1) :=
  ⟨rfl, rfl, by decide⟩

end NVMirror
