import NVMirror.JitRiscv.Encode
import NVMirror.JitRiscv.Machine

/-!
# Encoded RISC-V words decode

The fields of each format of words (`fields_rType`, `fields_iType`, …), and from them the
instruction of every word the emitter writes.  The opcode and the function codes are concrete at
each use, where they are found by evaluation.
-/

namespace NVMirror.Riscv

open Rust Fields

/-! ### R and I type -/

/-- The fields of an R-type word. -/
theorem fields_rType (funct7 : BitVec 7) (s2 s1 : Reg) (funct3 : BitVec 3) (d : Reg)
    (opcode : BitVec 7) {w : U32}
    (hw : w = rType (funct7.setWidth 32) (s2.setWidth 8) (s1.setWidth 8) (funct3.setWidth 32)
      (d.setWidth 8) (opcode.setWidth 32)) :
    field w 0 7 = opcode ∧ field w 7 5 = d ∧ field w 12 3 = funct3 ∧ field w 15 5 = s1 ∧
      field w 20 5 = s2 ∧ field w 25 7 = funct7 := by
  subst hw
  simp [rType]

theorem decode_op (funct7 : BitVec 7) (funct3 : BitVec 3) {f : DataOp}
    (h : dataOp funct7 funct3 = some f) (d s1 s2 : Reg) :
    decode (rType (funct7.setWidth 32) (s2.setWidth 8) (s1.setWidth 8) (funct3.setWidth 32)
      (d.setWidth 8) 0x33) = some (.op f false d s1 s2) := by
  generalize hw : rType _ _ _ _ _ _ = w
  obtain ⟨h1, h2, h3, h4, h5, h6⟩ := fields_rType funct7 s2 s1 funct3 d 0x33 hw.symm
  simp [decode, h1, h2, h3, h4, h5, h6, h]

theorem decode_opWord (funct7 : BitVec 7) (funct3 : BitVec 3) {f : DataOp}
    (h : (dataOp funct7 funct3).filter DataOp.hasWord = some f) (d s1 s2 : Reg) :
    decode (rType (funct7.setWidth 32) (s2.setWidth 8) (s1.setWidth 8) (funct3.setWidth 32)
      (d.setWidth 8) 0x3B) = some (.op f true d s1 s2) := by
  generalize hw : rType _ _ _ _ _ _ = w
  obtain ⟨h1, h2, h3, h4, h5, h6⟩ := fields_rType funct7 s2 s1 funct3 d 0x3B hw.symm
  simp [decode, h1, h2, h3, h4, h5, h6, h]

/-- The fields of an I-type word. -/
theorem fields_iType (imm : I32) (s1 : Reg) (funct3 : BitVec 3) (d : Reg) (opcode : BitVec 7)
    {w : U32} (hw : w = iType imm (s1.setWidth 8) (funct3.setWidth 32) (d.setWidth 8)
      (opcode.setWidth 32)) :
    field w 0 7 = opcode ∧ field w 7 5 = d ∧ field w 12 3 = funct3 ∧
      field w 12 2 = field funct3 0 2 ∧ field w 14 1 = field funct3 2 1 ∧ field w 15 5 = s1 ∧
      field w 20 12 = imm.setWidth 12 := by
  subst hw
  have hmask : imm &&& 0xFFF = (imm.setWidth 12).setWidth 32 := and_mask imm (k := 12) (by decide)
  rw [iType, hmask]
  generalize imm.setWidth 12 = imm12
  have h12 : field (funct3.setWidth 32 <<< 12) 12 2 = field funct3 0 2 :=
    field_put_inside funct3 (by decide) (by decide) (by decide)
  have h14 : field (funct3.setWidth 32 <<< 12) 14 1 = field funct3 2 1 :=
    field_put_inside funct3 (by decide) (by decide) (by decide)
  simp [h12, h14]

/-- The `funct3` of an operation with an immediate. -/
def immOp (funct3 : BitVec 3) : Option DataOp :=
  if funct3 = 0 then some .add
  else if funct3 = 4 then some .xor
  else if funct3 = 6 then some .or
  else if funct3 = 7 then some .and
  else none

theorem decode_opImm (funct3 : BitVec 3) {f : DataOp} (h : immOp funct3 = some f) (d s1 : Reg)
    (imm : I32) :
    decode (iType imm (s1.setWidth 8) (funct3.setWidth 32) (d.setWidth 8) 0x13) =
      some (.opImm f d s1 (imm.setWidth 12)) := by
  generalize hw : iType _ _ _ _ _ = w
  obtain ⟨h1, h2, h3, -, -, h4, h5⟩ := fields_iType imm s1 funct3 d 0x13 hw.symm
  unfold immOp at h
  split_ifs at h with hf hf hf hf <;>
  · cases h
    subst hf
    simp [decode, decodeImm, h1, h2, h3, h4, h5]

theorem decode_load (funct3 : BitVec 3) (h : funct3 ≠ 7) (d s1 : Reg) (imm : I32) :
    decode (iType imm (s1.setWidth 8) (funct3.setWidth 32) (d.setWidth 8) 0x03) =
      some (.load (field funct3 0 2) (field funct3 2 1 = 1) d s1 (imm.setWidth 12)) := by
  generalize hw : iType _ _ _ _ _ = w
  obtain ⟨h1, h2, h3, h12, h14, h4, h5⟩ := fields_iType imm s1 funct3 d 0x03 hw.symm
  simp [decode, h1, h2, h3, h12, h14, h4, h5]
  exact h

theorem decode_jalr (d s1 : Reg) (imm : I32) :
    decode (jalr (d.setWidth 8) (s1.setWidth 8) imm) = some (.jalr d s1 (imm.setWidth 12)) := by
  unfold jalr
  generalize hw : iType _ _ _ _ _ = w
  obtain ⟨h1, h2, h3, -, -, h4, h5⟩ := fields_iType imm s1 0 d 0x67 hw.symm
  simp [decode, h1, h2, h3, h4, h5]

/-! ### Shifts -/

/-- `funct6` and `funct3` of a shift by a constant. -/
def shiftOp (funct6 : BitVec 6) (funct3 : BitVec 3) : Option DataOp :=
  if funct3 = 1 ∧ funct6 = 0 then some .sll
  else if funct3 = 5 ∧ funct6 = 0 then some .srl
  else if funct3 = 5 ∧ funct6 = 0b010000 then some .sra
  else none

/-- The fields of a shift. -/
theorem fields_shiftImm (funct6 shamt : BitVec 6) (s1 : Reg) (funct3 : BitVec 3) (d : Reg)
    (opcode : BitVec 7) {w : U32}
    (hw : w = (funct6.setWidth 32 <<< 26) ||| (shamt.setWidth 32 <<< 20) |||
      ((s1.setWidth 8).setWidth 32 <<< 15) ||| (funct3.setWidth 32 <<< 12) |||
      ((d.setWidth 8).setWidth 32 <<< 7) ||| opcode.setWidth 32) :
    field w 0 7 = opcode ∧ field w 7 5 = d ∧ field w 12 3 = funct3 ∧ field w 15 5 = s1 ∧
      field w 20 6 = shamt ∧ field w 26 6 = funct6 := by
  subst hw
  simp

theorem decode_shiftImm (funct6 : BitVec 6) (funct3 : BitVec 3) {f : DataOp}
    (h : shiftOp funct6 funct3 = some f) (d s1 : Reg) (shamt : U32) :
    decode (shiftImm (funct6.setWidth 32 <<< 6) (s1.setWidth 8) shamt (funct3.setWidth 32)
      (d.setWidth 8)) = some (.shiftImm f d s1 (shamt.setWidth 6)) := by
  have hmask : shamt &&& 0x3F = (shamt.setWidth 6).setWidth 32 :=
    and_mask shamt (k := 6) (by decide)
  have hshift : (funct6.setWidth 32 <<< 6) <<< 20 = funct6.setWidth 32 <<< 26 :=
    (BitVec.shiftLeft_add _ 6 20).symm
  rw [shiftImm, hmask, hshift]
  generalize hw : _ ||| (0x13 : U32) = w
  obtain ⟨h1, h2, h3, h4, h5, h6⟩ :=
    fields_shiftImm funct6 (shamt.setWidth 6) s1 funct3 d 0x13 hw.symm
  unfold shiftOp at h
  split_ifs at h with hf hf hf <;>
  · cases h
    obtain ⟨rfl, rfl⟩ := hf
    simp [decode, decodeImm, h1, h2, h3, h4, h5, h6]

/-! ### S type -/

/-- The fields of an S-type word. -/
theorem fields_sType (imm : I32) (s2 s1 : Reg) (funct3 : BitVec 3) (opcode : BitVec 7) {w : U32}
    (hw : w = sType imm (s2.setWidth 8) (s1.setWidth 8) (funct3.setWidth 32)
      (opcode.setWidth 32)) :
    field w 0 7 = opcode ∧ field w 7 5 = field imm 0 5 ∧ field w 12 3 = funct3 ∧
      field w 12 2 = field funct3 0 2 ∧ field w 14 1 = field funct3 2 1 ∧ field w 15 5 = s1 ∧
      field w 20 5 = s2 ∧ field w 25 7 = field imm 5 7 := by
  subst hw
  have hmask : imm &&& 0xFFF = (imm.setWidth 12).setWidth 32 := and_mask imm (k := 12) (by decide)
  have hhi : (imm &&& 0xFFF).sshiftRight 5 &&& 0x7F = (field imm 5 7).setWidth 32 := by
    rw [hmask, ← field_setWidth imm 5 7 (k := 12) (by decide),
      ← field_setWidth (imm.setWidth 12) 5 7 (k := 32) (by decide)]
    exact sshiftRight_and _ 5 (k := 7) (by decide) (by decide)
  have hlo : imm &&& 0xFFF &&& 0x1F = (field imm 0 5).setWidth 32 := by
    rw [hmask, ← field_setWidth imm 0 5 (k := 12) (by decide),
      ← field_setWidth (imm.setWidth 12) 0 5 (k := 32) (by decide), field_zero]
    exact and_mask _ (k := 5) (by decide)
  rw [sType, hhi, hlo]
  have h12 : field (funct3.setWidth 32 <<< 12) 12 2 = field funct3 0 2 :=
    field_put_inside funct3 (by decide) (by decide) (by decide)
  have h14 : field (funct3.setWidth 32 <<< 12) 14 1 = field funct3 2 1 :=
    field_put_inside funct3 (by decide) (by decide) (by decide)
  simp [h12, h14]

theorem decode_store (funct3 : BitVec 3) (h : field funct3 2 1 = 0) (s2 s1 : Reg) (imm : I32) :
    decode (sType imm (s2.setWidth 8) (s1.setWidth 8) (funct3.setWidth 32) 0x23) =
      some (.store (field funct3 0 2) s2 s1 (imm.setWidth 12)) := by
  generalize hw : sType _ _ _ _ _ = w
  obtain ⟨h1, h2, h3, h12, h14, h4, h5, h6⟩ := fields_sType imm s2 s1 funct3 0x23 hw.symm
  have happ : field imm 5 7 ++ field imm 0 5 = imm.setWidth 12 := by
    rw [field_append imm 0 5 7, field_zero]
  simp [decode, h1, h2, h3, h12, h14, h4, h5, h6, h]
  exact happ

/-! ### B and J type -/

/-- The displacement of a B-type word is scattered over two fields. -/
theorem encodeBTypeImm_eq (imm : I32) :
    encodeBTypeImm imm = ((field imm 12 1).setWidth 32 <<< 31) |||
      ((field imm 5 6).setWidth 32 <<< 25) ||| ((field imm 1 4).setWidth 32 <<< 8) |||
      ((field imm 11 1).setWidth 32 <<< 7) := by
  have hmask : ∀ p k, p + k ≤ 32 → k < 32 → field (0x1FFE : I32) p k = BitVec.allOnes k →
      (imm &&& 0x1FFE).sshiftRight p &&& BitVec.ofNat 32 (2 ^ k - 1) =
        (field imm p k).setWidth 32 := by
    intro p k h hk hones
    rw [sshiftRight_and _ p h hk, field_and, hones, BitVec.and_allOnes]
  unfold encodeBTypeImm
  dsimp only
  rw [← hmask 12 1 (by decide) (by decide) (by decide),
    ← hmask 5 6 (by decide) (by decide) (by decide),
    ← hmask 1 4 (by decide) (by decide) (by decide),
    ← hmask 11 1 (by decide) (by decide) (by decide)]
  rfl

/-- The displacement of a J-type word. -/
theorem encodeJTypeImm_eq (imm : I32) :
    encodeJTypeImm imm = ((field imm 20 1).setWidth 32 <<< 31) |||
      ((field imm 1 10).setWidth 32 <<< 21) ||| ((field imm 11 1).setWidth 32 <<< 20) |||
      ((field imm 12 8).setWidth 32 <<< 12) := by
  unfold encodeJTypeImm
  dsimp only
  rw [← sshiftRight_and imm 20 (k := 1) (by decide) (by decide),
    ← sshiftRight_and imm 1 (k := 10) (by decide) (by decide),
    ← sshiftRight_and imm 11 (k := 1) (by decide) (by decide),
    ← sshiftRight_and imm 12 (k := 8) (by decide) (by decide)]
  rfl

/-- A conditional branch without its displacement. -/
theorem bType_and_mask (funct3 : BitVec 3) (s1 s2 : Reg) :
    bType (funct3.setWidth 32) (s1.setWidth 8) (s2.setWidth 8) 0 &&& (0x01FFF07F : U32) =
      ((s2.setWidth 8).setWidth 32 <<< 20) ||| ((s1.setWidth 8).setWidth 32 <<< 15) |||
        (funct3.setWidth 32 <<< 12) ||| 0x63 := by
  have hzero : encodeBTypeImm 0 = BitVec.ofNat 32 0 := rfl
  have hreg : ∀ r : Reg, (r.setWidth 8).setWidth 32 = r.setWidth 32 := fun r =>
    BitVec.setWidth_setWidth (by decide)
  rw [bType, hzero, BitVec.zero_or, hreg, hreg, BitVec.and_or_distrib_right,
    BitVec.and_or_distrib_right, BitVec.and_or_distrib_right, put_and_mask s2 _ (by decide),
    put_and_mask s1 _ (by decide), put_and_mask funct3 _ (by decide)]
  rfl

/-- **A patched conditional branch.** -/
theorem decode_patchedBranch (funct3 : BitVec 3) {cond : Compare} (h : compareOf funct3 = some cond)
    (s1 s2 : Reg) (imm : I32) :
    decode (encodeBTypeImm imm |||
        (bType (funct3.setWidth 32) (s1.setWidth 8) (s2.setWidth 8) 0 &&& (0x01FFF07F : U32))) =
      some (.branch cond s1 s2 (field imm 1 12)) := by
  have himm : field imm 12 1 ++ field imm 11 1 ++ field imm 5 6 ++ field imm 1 4 =
      field imm 1 12 := by
    have h11 : field imm 12 1 ++ field imm 11 1 = field imm 11 2 := field_append imm 11 1 1
    have h5 : field imm 11 2 ++ field imm 5 6 = field imm 5 8 := field_append imm 5 6 2
    rw [h11, h5]
    exact field_append imm 1 4 8
  rw [bType_and_mask, encodeBTypeImm_eq]
  generalize hw : (_ ||| _ : U32) = w
  have hopcode : (0x63 : U32) = (0x63 : BitVec 7).setWidth 32 := rfl
  rw [hopcode] at hw
  generalize hop : (0x63 : BitVec 7) = opcode at hw
  have h1 : field w 0 7 = opcode := by
    rw [← hw]
    simp
  have h2 : field w 12 3 = funct3 := by
    rw [← hw]
    simp
  have h3 : field w 15 5 = s1 := by
    rw [← hw]
    simp
  have h4 : field w 20 5 = s2 := by
    rw [← hw]
    simp
  have h5 : field w 31 1 = field imm 12 1 := by
    rw [← hw]
    simp
  have h6 : field w 7 1 = field imm 11 1 := by
    rw [← hw]
    simp
  have h7 : field w 25 6 = field imm 5 6 := by
    rw [← hw]
    simp
  have h8 : field w 8 4 = field imm 1 4 := by
    rw [← hw]
    simp
  simp only [decode, h1, h2, h3, h4, h5, h6, h7, h8, ← hop, h]
  simp
  exact himm

/-- **A patched jump.** -/
theorem decode_patchedJump (imm : I32) :
    decode (encodeJTypeImm imm ||| 0x6F ||| (jal 0 0 &&& 0xF80)) =
      some (.jal 0 (field imm 1 20)) := by
  have himm : field imm 20 1 ++ field imm 12 8 ++ field imm 11 1 ++ field imm 1 10 =
      field imm 1 20 := by
    have h12 : field imm 20 1 ++ field imm 12 8 = field imm 12 9 := field_append imm 12 8 1
    have h11 : field imm 12 9 ++ field imm 11 1 = field imm 11 10 := field_append imm 11 1 9
    rw [h12, h11]
    exact field_append imm 1 10 10
  have hrest : jal 0 0 &&& 0xF80 = BitVec.ofNat 32 0 := by decide
  have hopcode : (0x6F : U32) = (0x6F : BitVec 7).setWidth 32 := rfl
  rw [hrest, BitVec.or_zero, encodeJTypeImm_eq, hopcode]
  generalize hop : (0x6F : BitVec 7) = opcode
  generalize hw : (_ ||| _ : U32) = w
  have h1 : field w 0 7 = opcode := by
    rw [← hw]
    simp
  have h2 : field w 7 5 = 0 := by
    rw [← hw]
    simp
  have h3 : field w 31 1 = field imm 20 1 := by
    rw [← hw]
    simp
  have h4 : field w 12 8 = field imm 12 8 := by
    rw [← hw]
    simp
  have h5 : field w 20 1 = field imm 11 1 := by
    rw [← hw]
    simp
  have h6 : field w 21 10 = field imm 1 10 := by
    rw [← hw]
    simp
  simp only [decode, h1, h2, h3, h4, h5, h6, ← hop]
  simp
  exact himm

/-! ### Upper immediates and atomics -/

theorem decode_lui (d : Reg) (imm : I32) :
    decode (lui (d.setWidth 8) imm) = some (.lui d (field imm 12 20)) := by
  have hhi : imm &&& 0xFFFFF000 = (field imm 12 20).setWidth 32 <<< 12 :=
    and_fieldMask imm 12 20
  have hopcode : (0x37 : U32) = (0x37 : BitVec 7).setWidth 32 := rfl
  rw [lui, hhi, hopcode]
  generalize hop : (0x37 : BitVec 7) = opcode
  generalize hw : (_ ||| _ : U32) = w
  have h1 : field w 0 7 = opcode := by
    rw [← hw]
    simp
  have h2 : field w 7 5 = d := by
    rw [← hw]
    simp
  have h3 : field w 12 20 = field imm 12 20 := by
    rw [← hw]
    simp
  simp [decode, h1, h2, h3, ← hop]

/-- The fields of an atomic instruction with both ordering bits. -/
theorem fields_amo (funct5 : BitVec 5) (s2 s1 : Reg) (d : Reg) {w : U32}
    (hw : w = amo (funct5.setWidth 32) true true (s2.setWidth 8) (s1.setWidth 8) 3
      (d.setWidth 8)) :
    field w 0 7 = 0x2F ∧ field w 7 5 = d ∧ field w 12 3 = 3 ∧ field w 15 5 = s1 ∧
      field w 20 5 = s2 ∧ field w 27 5 = funct5 := by
  have hbit : (1 : U32) = (1 : BitVec 1).setWidth 32 := rfl
  have hfunct3 : (3 : U32) = (3 : BitVec 3).setWidth 32 := rfl
  have hopcode : (0x2F : U32) = (0x2F : BitVec 7).setWidth 32 := rfl
  rw [amo, hbit, hfunct3, hopcode] at hw
  generalize (1 : BitVec 1) = one at hw
  generalize (3 : BitVec 3) = funct3 at hw ⊢
  generalize (0x2F : BitVec 7) = opcode at hw ⊢
  subst hw
  simp

theorem decode_amo (funct5 : BitVec 5) {f : AmoOp} (h : amoOp funct5 = some f) (d s2 s1 : Reg) :
    decode (amo (funct5.setWidth 32) true true (s2.setWidth 8) (s1.setWidth 8) 3 (d.setWidth 8)) =
      some (.amo f d s2 s1) := by
  generalize hw : amo _ _ _ _ _ _ _ = w
  obtain ⟨h1, h2, h3, h4, h5, h6⟩ := fields_amo funct5 s2 s1 d hw.symm
  have hlr : funct5 ≠ BitVec.ofNat 5 2 := by
    rintro rfl
    cases h
  have hsc : funct5 ≠ BitVec.ofNat 5 3 := by
    rintro rfl
    cases h
  simp [decode, decodeAtomic, h1, h2, h3, h4, h5, h6, h, hlr, hsc]

theorem decode_scD (d s2 s1 : Reg) :
    decode (scD (d.setWidth 8) (s2.setWidth 8) (s1.setWidth 8)) =
      some (.storeConditional d s2 s1) := by
  unfold scD
  generalize hw : amo _ _ _ _ _ _ _ = w
  obtain ⟨h1, h2, h3, h4, h5, h6⟩ := fields_amo 3 s2 s1 d hw.symm
  simp [decode, decodeAtomic, h1, h2, h3, h4, h5, h6]

end NVMirror.Riscv
