import NVMirror.JitAarch64.Encode
import NVMirror.JitAarch64.Machine
import NVMirror.Library.Fields

/-!
# Encoded words decode

A word is an opcode with its operands put into fields, which the rules of the field library read
(`field_put`, `field_put_above`, `field_put_below`).  With them every shape of words decodes to its
instruction if the fields of the opcode are right, which is decided by evaluation.
-/

namespace NVMirror.Aarch64

open Rust

/-! ### Fields -/

@[simp] theorem field_or (a b : U32) (lo len : ℕ) :
    field (a ||| b) lo len = field a lo len ||| field b lo len :=
  Fields.field_or a b lo len

section

variable {k : ℕ} (v : BitVec k) {p lo len : ℕ}

@[simp] theorem field_put (h : p + k ≤ 32) : field (v.setWidth 32 <<< p) p k = v :=
  Fields.field_put v h

@[simp] theorem field_put_above (h : p + k ≤ lo) :
    field (v.setWidth 32 <<< p) lo len = BitVec.ofNat len 0 :=
  Fields.field_put_above v h

@[simp] theorem field_put_below (h : lo + len ≤ p) :
    field (v.setWidth 32 <<< p) lo len = BitVec.ofNat len 0 :=
  Fields.field_put_below v h

@[simp] theorem field_low (h : k ≤ 32) : field (v.setWidth 32) 0 k = v := Fields.field_low v h

@[simp] theorem field_low_above (h : k ≤ lo) :
    field (v.setWidth 32) lo len = BitVec.ofNat len 0 :=
  Fields.field_low_above v h

end

/-! ### Data processing -/

/-- The opcode of an operation on two registers. -/
abbrev IsData (op : U32) (dop : DataOp) (sf : Bool) : Prop :=
  field op 0 5 = 0#5 ∧ field op 5 5 = 0#5 ∧ field op 16 5 = 0#5 ∧ field op 25 3 = 0b101#3 ∧
    field op 26 3 ≠ 0b100#3 ∧ field op 26 3 ≠ 0b101#3 ∧ field op 21 10 ≠ 0b0011011000#10 ∧
    dataOp (field op 21 10) (field op 10 6) = some dop ∧ decide (field op 31 1 = 1#1) = sf

theorem decode_rrr {op : U32} {dop : DataOp} {sf : Bool} (h : IsData op dop sf) (d n m : Reg) :
    decode (rrr op (d.setWidth 8) (n.setWidth 8) (m.setWidth 8)) = some (.data dop sf d n m) := by
  obtain ⟨hd, hn, hm, hgroup, himm, hbr, hhi, hop, hsf⟩ := h
  simp [decode, decodeData, rrr, hd, hn, hm, hgroup, himm, hbr, hhi, hop, hsf]

/-- The opcode of a multiplication; `a` is what stands in the field of the addend. -/
abbrev IsMultiply (op : U32) (sub sf : Bool) (a : Reg) : Prop :=
  field op 0 5 = 0#5 ∧ field op 5 5 = 0#5 ∧ field op 16 5 = 0#5 ∧ field op 10 5 = a ∧
    field op 25 3 = 0b101#3 ∧ field op 26 3 ≠ 0b100#3 ∧ field op 26 3 ≠ 0b101#3 ∧
    field op 21 10 = 0b0011011000#10 ∧ decide (field op 15 1 = 1#1) = sub ∧
    decide (field op 31 1 = 1#1) = sf

theorem decode_rrr_multiply {op : U32} {sub sf : Bool} {a : Reg} (h : IsMultiply op sub sf a)
    (d n m : Reg) : decode (rrr op (d.setWidth 8) (n.setWidth 8) (m.setWidth 8)) =
      some (.multiply sub sf d n m a) := by
  obtain ⟨hd, hn, hm, ha, hgroup, himm, hbr, hhi, hsub, hsf⟩ := h
  simp [decode, decodeData, rrr, hd, hn, hm, ha, hgroup, himm, hbr, hhi, hsub, hsf]

theorem decode_rrrr {op : U32} {sub sf : Bool} (h : IsMultiply op sub sf 0) (d n m a : Reg) :
    decode (rrrr op (d.setWidth 8) (n.setWidth 8) (m.setWidth 8) (a.setWidth 8)) =
      some (.multiply sub sf d n m a) := by
  obtain ⟨hd, hn, hm, ha, hgroup, himm, hbr, hhi, hsub, hsf⟩ := h
  simp [decode, decodeData, rrrr, hd, hn, hm, ha, hgroup, himm, hbr, hhi, hsub, hsf]

/-- The opcode of an addition of an immediate. -/
abbrev IsAddImm (op : U32) (sub sf : Bool) : Prop :=
  field op 0 5 = 0#5 ∧ field op 5 5 = 0#5 ∧ field op 10 12 = 0#12 ∧ field op 26 3 = 0b100#3 ∧
    (field op 22 9 = 0b001000100#9 ∨ field op 22 9 = 0b101000100#9) ∧
    decide (field op 30 1 = 1#1) = sub ∧ decide (field op 31 1 = 1#1) = sf

theorem decode_rri12 {op : U32} {sub sf : Bool} (h : IsAddImm op sub sf) (d n : Reg)
    (imm12 : U16) : decode (rri12 op (d.setWidth 8) (n.setWidth 8) imm12) =
      some (.addImm sub sf d n (imm12.setWidth 12)) := by
  obtain ⟨hd, hn, himm, hgroup, hhi, hsub, hsf⟩ := h
  have hmask := Fields.and_mask (imm12.setWidth 32) (k := 12) (by decide)
  simp only [Nat.reducePow, Nat.reduceSub] at hmask
  simp [decode, decodeImm, rri12, hmask, hd, hn, himm, hgroup, hhi, hsub, hsf]

/-- The opcode of a move of 16 bits, together with their position. -/
abbrev IsMovWide (op : U32) (keep sf : Bool) (hw : BitVec 2) : Prop :=
  field op 0 5 = 0#5 ∧ field op 5 16 = 0#16 ∧ field op 21 2 = hw ∧ field op 26 3 = 0b100#3 ∧
    ¬(field op 22 9 = 0b001000100#9 ∨ field op 22 9 = 0b101000100#9) ∧
    ((field op 23 8 = 0b10100101#8 ∨ field op 23 8 = 0b11100101#8) ∧
      (field op 31 1 = 1#1 ∨ field op 22 1 = 0#1)) ∧
    decide (field op 29 1 = 1#1) = keep ∧ decide (field op 31 1 = 1#1) = sf

theorem decode_movWide {op mask : U32} {keep sf : Bool} {hw : U8} {hw' : BitVec 2}
    (h : IsMovWide (op ||| ((hw.setWidth 32 &&& mask) <<< 21)) keep sf hw') (d : Reg)
    (imm16 : U16) : decode (movWide op mask (d.setWidth 8) imm16 hw) =
      some (.movWide keep sf d imm16 hw') := by
  unfold movWide
  generalize op ||| ((hw.setWidth 32 &&& mask) <<< 21) = op' at h ⊢
  obtain ⟨hd, himm, hhw, hgroup, hhi, hhi', hkeep, hsf⟩ := h
  simp [decode, decodeImm, hd, himm, hhw, hgroup, hhi, hhi', hkeep, hsf]

/-- The opcode of a bitfield move, together with the last bit. -/
abbrev IsBitfield (op : U32) (signed : Bool) (imms : BitVec 6) : Prop :=
  field op 0 5 = 0#5 ∧ field op 5 5 = 0#5 ∧ field op 10 6 = imms ∧ field op 16 6 = 0#6 ∧
    field op 26 3 = 0b100#3 ∧
    ¬(field op 22 9 = 0b001000100#9 ∨ field op 22 9 = 0b101000100#9) ∧
    ¬(field op 23 8 = 0b10100101#8 ∨ field op 23 8 = 0b11100101#8) ∧
    (field op 22 10 = 0b1001001101#10 ∨ field op 22 10 = 0b1101001101#10) ∧
    decide (field op 30 1 = 0#1) = signed

theorem decode_rrr_bitfield {op : U32} {signed : Bool} {imms : BitVec 6}
    (h : IsBitfield op signed imms) (d n : Reg) (immr : BitVec 6) :
    decode (rrr op (d.setWidth 8) (n.setWidth 8) (immr.setWidth 8)) =
      some (.bitfield signed d n immr imms) := by
  obtain ⟨hd, hn, himms, himmr, hgroup, hhi, hhi', hop, hsigned⟩ := h
  simp [decode, decodeImm, rrr, hd, hn, himms, himmr, hgroup, hhi, hhi', hop, hsigned]

/-- Both ends of the field as operands. -/
theorem decode_bitfield {op : U32} {signed : Bool} (h : IsBitfield op signed 0) (d n : Reg)
    (immr imms : BitVec 6) :
    decode (op ||| ((immr.setWidth 8).setWidth 32 <<< 16) |||
      ((imms.setWidth 8).setWidth 32 <<< 10) ||| ((n.setWidth 8).setWidth 32 <<< 5) |||
      (d.setWidth 8).setWidth 32) = some (.bitfield signed d n immr imms) := by
  obtain ⟨hd, hn, himms, himmr, hgroup, hhi, hhi', hop, hsigned⟩ := h
  simp [decode, decodeImm, hd, hn, himms, himmr, hgroup, hhi, hhi', hop, hsigned]

/-! ### Branches -/

/-- A conditional branch without its displacement. -/
abbrev IsBCond (op : U32) (cond : BitVec 4) : Prop :=
  field op 0 4 = cond ∧ field op 4 1 = 0#1 ∧ field op 5 19 = 0#19 ∧ field op 26 3 = 0b101#3 ∧
    field op 26 6 ≠ 0b000101#6 ∧ field op 24 8 = 0b01010100#8

theorem decode_bCond {op : U32} {cond : BitVec 4} (h : IsBCond op cond) (imm19 : BitVec 19) :
    decode (op ||| (imm19.setWidth 32 <<< 5)) = some (.bCond cond imm19) := by
  obtain ⟨hcond, hzero, himm, hgroup, hne, hop⟩ := h
  simp [decode, decodeBranch, hcond, hzero, himm, hgroup, hne, hop]

/-- The opcode of an unconditional branch. -/
abbrev IsB (op : U32) : Prop :=
  field op 0 26 = 0#26 ∧ field op 26 3 = 0b101#3 ∧ field op 26 6 = 0b000101#6

theorem decode_b {op : U32} (h : IsB op) (imm26 : BitVec 26) :
    decode (op ||| imm26.setWidth 32) = some (.b imm26) := by
  obtain ⟨himm, hgroup, hop⟩ := h
  simp [decode, decodeBranch, himm, hgroup, hop]

/-! ### Loads and stores -/

/-- The opcode of a pair instruction. -/
abbrev IsPair (op : U32) (mode : PairMode) (load : Bool) : Prop :=
  field op 0 5 = 0#5 ∧ field op 5 5 = 0#5 ∧ field op 10 5 = 0#5 ∧ field op 15 7 = 0#7 ∧
    decide (field op 22 1 = 1#1) = load ∧ field op 25 3 ≠ 0b101#3 ∧
    field op 26 3 ≠ 0b100#3 ∧ field op 26 3 ≠ 0b101#3 ∧ field op 27 1 = 1#1 ∧ field op 25 1 = 0#1 ∧
    ¬(field op 22 10 = 0b1111100100#10 ∨ field op 22 10 = 0b1111100101#10) ∧
    field op 23 9 =
      match mode with
      | .postIndex => 0b101010001#9
      | .offset => 0b101010010#9
      | .preIndex => 0b101010011#9

theorem decode_ldstPair {op : U32} {mode : PairMode} {load : Bool} (h : IsPair op mode load)
    (t1 t2 n : Reg) (off : I16) :
    decode (ldstPair op (t1.setWidth 8) (t2.setWidth 8) (n.setWidth 8) off) =
      some (.pair mode load t1 t2 n ((off.sdiv 8).setWidth 7)) := by
  obtain ⟨ht1, hn, ht2, himm, hload, hgroup, hi, hbr, hls, hls', hne, hmode⟩ := h
  have himm7 : (off.sdiv 8).signExtend 32 &&& 0x7F = ((off.sdiv 8).setWidth 7).setWidth 32 := by
    have hlow : ((off.sdiv 8).signExtend 32).setWidth 7 = (off.sdiv 8).setWidth 7 := by
      ext i hi
      have hlt : i < 16 := by omega
      have hlt' : i < 32 := by omega
      simp [BitVec.getElem_signExtend, hlt, hlt']
    rw [← hlow]
    exact Fields.and_mask ((off.sdiv 8).signExtend 32) (k := 7) (by decide)
  unfold ldstPair
  rw [himm7]
  generalize (off.sdiv 8).setWidth 7 = imm7
  cases mode <;>
    simp [decode, decodeLoadStore, ht1, hn, ht2, himm, hload, hgroup, hi, hbr, hls, hls', hne,
      hmode]

end NVMirror.Aarch64
