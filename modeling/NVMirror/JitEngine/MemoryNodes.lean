import NVMirror.JitAarch64.FullWords
import NVMirror.JitAarch64.Program
import NVMirror.JitRiscv.Registers

/-!
# Loads and stores

Which offsets the instructions of a `Load` or `Store` node hold.

* `Access`: one access to memory.  `traced` records those of the steps of a machine.
* `LoadsAt`, `StoresAt`: the words make one access of the given width at base and offset, with the
  effect the node has.
* `memory_nodes_iff`: the offsets for which they do.  On AArch64 the field is unsigned and counts
  units of the width, so it holds no negative offset; on RISC-V it has 12 bits and a sign.
-/

namespace NVMirror

open Rust Bytes

/-- An access to memory. -/
structure Access where
  store : Bool
  address : U64
  bytes : ℕ
  deriving DecidableEq, Repr

/-- A step that also records its accesses. -/
def traced {α : Type} (step : α → Rust Empty α) (accesses : α → List Access)
    (a : α × List Access) : Rust Empty (α × List Access) := do
  let m ← step a.1
  pure (m, a.2 ++ accesses a.1)

/-! ### AArch64 -/

namespace Aarch64

namespace Full

/-- The accesses of an instruction, in this state. -/
def Instr.accesses (c : Cpu) : Instr → List Access
  | .base (.loadStore load _ n imm12) => [⟨!load, c.x n + imm12.setWidth 64 * 8, 8⟩]
  | .base (.pair mode load _ _ n imm7) =>
    let address :=
      match mode with
      | .postIndex => c.x n
      | .offset | .preIndex => c.x n + imm7.signExtend 64 * 8
    [⟨!load, address, 8⟩, ⟨!load, address + 8, 8⟩]
  | .loadStore kind size _ n imm12 =>
    let address := c.x n + imm12.setWidth 64 <<< size.toNat
    match kind with
    | .store => [⟨true, address, 2 ^ size.toNat⟩]
    | .prefetch => []
    | _ => [⟨false, address, 2 ^ size.toNat⟩]
  | .atomic _ _ _ n => [⟨false, c.x n, 8⟩, ⟨true, c.x n, 8⟩]
  | .cas s _ n =>
    let expected : U64 := c.get true s
    if c.load64 (c.x n) = expected then [⟨false, c.x n, 8⟩, ⟨true, c.x n, 8⟩]
    else [⟨false, c.x n, 8⟩]
  | _ => []

/-- The accesses of the next instruction. -/
def accesses (code : List U8) (m : Machine) : List Access :=
  ((fetchU32 code m.pc).bind decode).elim [] (Instr.accesses m.toCpu)

/-- A single word. -/
theorem steps_word (env : Env) (w : U32) (c : Cpu) :
    steps (traced (step env (ofWords [w])) (accesses (ofWords [w]))) (⟨c, 0⟩, []) 1 =
      match decode w with
      | none => panic
      | some i =>
        if i.traps env c then panic
        else .ok (⟨i.exec env 0 c, i.displacement c⟩, i.accesses c) := by
  have hfetch : fetchU32 (ofWords [w]) 0 = some w := fetchU32_ofWords (i := 0) rfl
  rw [steps_one]
  unfold traced accesses step
  dsimp only
  rw [hfetch]
  dsimp only [Option.bind_some]
  cases decode w with
  | none => rfl
  | some i =>
    dsimp only [Option.elim]
    rw [zero_add]
    cases i.traps env c <;> rfl

end Full

/-- **The words load** `width` bytes at base and offset, extend them with zeros, and do nothing
else. -/
def LoadsAt (ws : List U32) (d n : Reg) (width : MemWidth) (off : I16) : Prop :=
  ∀ (env : Full.Env) (c : Cpu),
    let address := c.x n + off.signExtend 64
    let bits := loadLe (8 * width.byteLen) width.byteLen c.mem address
    steps (traced (Full.step env (ofWords ws)) (Full.accesses (ofWords ws))) (⟨c, 0⟩, [])
        ws.length =
      .ok (⟨c.set d (bits.setWidth 64), 4 * ws.length⟩, [⟨false, address, width.byteLen⟩])

/-- **The words store** the low `width` bytes of a register at base and offset, and do nothing
else. -/
def StoresAt (ws : List U32) (s n : Reg) (width : MemWidth) (off : I16) : Prop :=
  ∀ (env : Full.Env) (c : Cpu),
    let address := c.x n + off.signExtend 64
    steps (traced (Full.step env (ofWords ws)) (Full.accesses (ofWords ws))) (⟨c, 0⟩, [])
        ws.length =
      .ok (⟨{ c with mem := storeLe width.byteLen c.mem address (c.x s) }, 4 * ws.length⟩,
        [⟨true, address, width.byteLen⟩])

/-- The offset counts fewer than `2 ^ 12` units of the width. -/
def OffsetFits (width : MemWidth) (off : I16) : Prop :=
  0 ≤ off.toInt ∧ off.toInt < 4096 * width.byteLen ∧ (width.byteLen : ℤ) ∣ off.toInt

/-- The scaled field of an offset is that offset. -/
theorem field_eq_offset_iff {scale : ℕ} (hscale : scale < 4) (off : I16) :
    ((off >>> scale).setWidth 12).setWidth 64 <<< scale = off.signExtend 64 ↔
      0 ≤ off.toInt ∧ off.toInt < 4096 * (2 ^ scale : ℕ) ∧ ((2 ^ scale : ℕ) : ℤ) ∣ off.toInt := by
  have hlt := off.isLt
  have hint := BitVec.toInt_eq_toNat_cond off
  have hext : (off.signExtend 64).toNat = (off.setWidth 64).toNat +
      if off.msb then 2 ^ 64 - 2 ^ 16 else 0 := BitVec.toNat_signExtend off
  rw [BitVec.toNat_eq]
  rw [BitVec.msb_eq_decide] at hext
  simp only [BitVec.toNat_shiftLeft, BitVec.toNat_setWidth, BitVec.toNat_ushiftRight,
    Nat.shiftRight_eq_div_pow, Nat.shiftLeft_eq] at hext ⊢
  rw [hext, hint]
  interval_cases scale <;> split_ifs at * <;> simp at * <;> omega

namespace Full

variable {w : U32} {i : Instr} {scale : ℕ}

/-- Whatever a load or store means, its address is in its fields. -/
theorem address_of_isMemory (h : IsMemory w) (hdecode : decode w = some i) (c : Cpu) :
    ∀ a ∈ i.accesses c, a.address =
      c.x (field w 5 5) + (field w 10 12).setWidth 64 <<< (field w 30 2).toNat := by
  intro a ha
  rcases h.decode_eq hdecode with ⟨kind, rfl⟩ | ⟨hsize, load, rfl⟩
  · cases kind with
    | prefetch => cases ha
    | _ => rw [List.mem_singleton.1 ha]
  · rw [List.mem_singleton.1 ha, hsize]
    have height : ∀ v : U64, v * 8 = v <<< 3 := fun v => (BitVec.shiftLeft_eq_mul_twoPow v 3).symm
    exact congrArg (c.x (field w 5 5) + ·) (height _)

/-- The opcode of a load or store of `2 ^ scale` bytes. -/
abbrev IsTransfer (op : U32) (load : Bool) (scale : ℕ) : Prop :=
  IsLdst op ∧ field op 5 5 = 0#5 ∧ field op 10 12 = 0#12 ∧ field op 30 2 = BitVec.ofNat 2 scale ∧
    field op 24 6 = 0b111001#6 ∧ field op 22 2 = (if load then 1#2 else 0#2)

/-- The fields of its word. -/
theorem fields_ldst {op : U32} {load : Bool} (h : IsTransfer op load scale) (t n : Reg)
    (off : I16) : field (ldst op scale (t.setWidth 8) (n.setWidth 8) off) 5 5 = n ∧
      field (ldst op scale (t.setWidth 8) (n.setWidth 8) off) 10 12 = (off >>> scale).setWidth 12 ∧
      field (ldst op scale (t.setWidth 8) (n.setWidth 8) off) 30 2 = BitVec.ofNat 2 scale := by
  obtain ⟨-, hn, himm, hsize, -⟩ := h
  unfold ldst
  generalize off >>> scale = scaled
  have hin : field (scaled.setWidth 32 <<< 10) 10 12 = scaled.setWidth 12 :=
    (Fields.field_put_inside scaled le_rfl (by decide) (by decide)).trans (Fields.field_zero _ _)
  simp [hn, himm, hsize, hin]

/-- A load or store of a doubleword. -/
theorem decode_doubleword {load : Bool} (h24 : field w 24 6 = 0b111001#6)
    (h22 : field w 22 2 = if load then 1#2 else 0#2) (hsize : field w 30 2 = 3#2) :
    Aarch64.decode w = some (.loadStore load (field w 0 5) (field w 5 5) (field w 10 12)) := by
  have htop : field w 22 10 = 3#2 ++ 0b111001#6 ++ if load then 1#2 else 0#2 := by
    have h24' : field w 30 2 ++ field w 24 6 = field w 24 8 := Fields.field_append w 24 6 2
    have h22' : field w 24 8 ++ field w 22 2 = field w 22 10 := Fields.field_append w 22 2 8
    rw [← h22', ← h24', hsize, h24, h22]
  have hfield : ∀ a len : ℕ, a + len ≤ 10 →
      field w (22 + a) len = (field w 22 10).extractLsb' a len := fun a len ha =>
    (field_field w ha).symm
  have h26 := hfield 4 3 (by decide)
  have h25 := hfield 3 3 (by decide)
  have h27 := hfield 5 1 (by decide)
  have h25' := hfield 3 1 (by decide)
  have hload := hfield 0 1 (by decide)
  rw [htop] at h26 h25 h27 h25' hload
  unfold Aarch64.decode decodeLoadStore
  dsimp only
  rw [h26, h25, h27, h25', hload, htop]
  cases load <;> rfl

/-- A load or store of another width. -/
theorem decode_transfer {load : Bool} (hmem : IsMemory w) (h24 : field w 24 6 = 0b111001#6)
    (h22 : field w 22 2 = if load then 1#2 else 0#2) (hsize : field w 30 2 ≠ 3#2) :
    decode w = some (.loadStore (if load then .load else .store) (field w 30 2) (field w 0 5)
      (field w 5 5) (field w 10 12)) := by
  have hbase : Aarch64.decode w = none := by
    cases hdecode : Aarch64.decode w with
    | none => rfl
    | some i => exact absurd (hmem.decode_base hdecode).1 hsize
  have htransfer : transfer (field w 30 2) (field w 22 2) =
      some (if load then .load else .store) := by
    rw [h22]
    cases load <;> rfl
  unfold decode decodeMore
  rw [hbase]
  dsimp only
  rw [if_pos (c := field w 24 6 = 0b111001) h24, htransfer]
  rfl

/-- Where the scaled offset has 12 bits, it leaves the opcode as it is. -/
theorem opcode_ldst {op : U32} {load : Bool} (h : IsTransfer op load scale) (t n : Reg) {off : I16}
    (hoff : off.toNat < 4096 * 2 ^ scale) :
    field (ldst op scale (t.setWidth 8) (n.setWidth 8) off) 24 6 = 0b111001#6 ∧
      field (ldst op scale (t.setWidth 8) (n.setWidth 8) off) 22 2 =
        if load then 1#2 else 0#2 := by
  obtain ⟨-, -, -, -, h24, h22⟩ := h
  have hscaled : (off >>> scale).setWidth 32 = ((off >>> scale).setWidth 12).setWidth 32 := by
    have hlt : (off >>> scale).toNat < 4096 := by
      rw [BitVec.toNat_ushiftRight, Nat.shiftRight_eq_div_pow]
      exact Nat.div_lt_of_lt_mul (by linarith)
    refine BitVec.eq_of_toNat_eq ?_
    rw [BitVec.toNat_setWidth, BitVec.toNat_setWidth, BitVec.toNat_setWidth,
      Nat.mod_eq_of_lt (b := 2 ^ 12) (by omega)]
  unfold ldst
  rw [hscaled]
  generalize (off >>> scale).setWidth 12 = imm12
  constructor
  · simp [h24]
  · simp [h22]

/-- **A load or store whose offset fits** is decoded as what it was encoded from. -/
theorem decode_ldst {op : U32} {load : Bool} (h : IsTransfer op load scale) (hscale : scale < 4)
    (t n : Reg) {off : I16} (hoff : off.toNat < 4096 * 2 ^ scale) :
    ∃ i, decode (ldst op scale (t.setWidth 8) (n.setWidth 8) off) = some i ∧
      ∀ (env : Env) (pc : ℤ) (c : Cpu),
        let address := c.x n + ((off >>> scale).setWidth 12).setWidth 64 <<< scale
        i.displacement c = 4 ∧ i.traps env c = false ∧
          i.accesses c = [⟨!load, address, 2 ^ scale⟩] ∧ i.exec env pc c =
            Instr.execTransfer c (if load then .load else .store) (2 ^ scale) t address := by
  obtain ⟨hmem, ht⟩ := isMemory_ldst h.1 scale t n off
  obtain ⟨hn, himm, hsize⟩ := fields_ldst h t n off
  obtain ⟨h24, h22⟩ := opcode_ldst h t n hoff
  generalize ldst op scale (t.setWidth 8) (n.setWidth 8) off = w at hmem ht hn himm hsize h24 h22 ⊢
  generalize (off >>> scale).setWidth 12 = imm12 at himm ⊢
  by_cases hdw : scale = 3
  · subst hdw
    have hdecode := decode_doubleword h24 h22 hsize
    rw [ht, hn, himm] at hdecode
    have height : ∀ v : U64, v <<< 3 = v * 8 := fun v => BitVec.shiftLeft_eq_mul_twoPow v 3
    refine ⟨_, decode_of_base hdecode, fun env pc c => ?_⟩
    dsimp only
    rw [height]
    refine ⟨rfl, rfl, rfl, ?_⟩
    cases load with
    | false => rfl
    | true => exact congrArg (c.set t) (BitVec.setWidth_eq _).symm
  · have hnat : (BitVec.ofNat 2 scale).toNat = scale := by
      rw [BitVec.toNat_ofNat, Nat.mod_eq_of_lt hscale]
    have hthree : field w 30 2 ≠ 3#2 := by
      rw [hsize]
      exact fun h => hdw (hnat.symm.trans (congrArg BitVec.toNat h))
    have hdecode := decode_transfer hmem h24 h22 hthree
    rw [hsize, ht, hn, himm] at hdecode
    refine ⟨_, hdecode, fun env pc c => ?_⟩
    dsimp only [Instr.displacement, Instr.accesses, Instr.exec]
    rw [hnat]
    cases load <;> exact ⟨rfl, rfl, rfl, rfl⟩

/-- A word with one access, at base and offset: the offset fits. -/
theorem fits_of_steps {op : U32} {load : Bool} (h : IsTransfer op load scale) (hscale : scale < 4)
    {t n : Reg} {off : I16} {width : MemWidth} (hwidth : width.byteLen = 2 ^ scale) {env : Env}
    {c : Cpu} {m : Machine} {store : Bool} {bytes : ℕ}
    (hsteps : steps (traced
        (step env (ofWords [ldst op scale (t.setWidth 8) (n.setWidth 8) off]))
        (accesses (ofWords [ldst op scale (t.setWidth 8) (n.setWidth 8) off]))) (⟨c, 0⟩, []) 1 =
      .ok (m, [⟨store, c.x n + off.signExtend 64, bytes⟩])) : OffsetFits width off := by
  rw [steps_word] at hsteps
  cases hdecode : decode (ldst op scale (t.setWidth 8) (n.setWidth 8) off) with
  | none =>
    rw [hdecode] at hsteps
    cases hsteps
  | some i =>
    rw [hdecode] at hsteps
    dsimp only at hsteps
    split_ifs at hsteps
    · cases hsteps
    have haccess : i.accesses c = [⟨store, c.x n + off.signExtend 64, bytes⟩] :=
      congrArg Prod.snd (Except.ok.inj hsteps)
    obtain ⟨hmem, -⟩ := isMemory_ldst h.1 scale t n off
    obtain ⟨hn, himm, hsize⟩ := fields_ldst h t n off
    have hfield := address_of_isMemory hmem hdecode c _ (by rw [haccess, List.mem_singleton])
    have hnat : (BitVec.ofNat 2 scale).toNat = scale := by
      rw [BitVec.toNat_ofNat, Nat.mod_eq_of_lt hscale]
    rw [hn, himm, hsize, hnat, BitVec.add_right_inj] at hfield
    unfold OffsetFits
    rw [hwidth]
    exact (field_eq_offset_iff hscale off).1 hfield.symm

/-- The address of an offset that fits. -/
theorem address_of_fits {off : I16} {width : MemWidth} (hwidth : width.byteLen = 2 ^ scale)
    (hscale : scale < 4) (h : OffsetFits width off) :
    off.toNat < 4096 * 2 ^ scale ∧
      ((off >>> scale).setWidth 12).setWidth 64 <<< scale = off.signExtend 64 := by
  unfold OffsetFits at h
  rw [hwidth] at h
  have hint := BitVec.toInt_eq_toNat_cond off
  refine ⟨?_, (field_eq_offset_iff hscale off).2 h⟩
  obtain ⟨hpos, hlt, -⟩ := h
  push_cast at hlt
  split_ifs at hint <;> zify <;> omega

end Full

/-- A word that loads. -/
theorem loadsAt_ldst_iff {op : U32} {scale : ℕ} (h : Full.IsTransfer op true scale)
    (hscale : scale < 4) (d n : Reg) (off : I16) {width : MemWidth}
    (hwidth : width.byteLen = 2 ^ scale) :
    LoadsAt [ldst op scale (d.setWidth 8) (n.setWidth 8) off] d n width off ↔
      OffsetFits width off := by
  constructor
  · intro hloads
    have hone := hloads .idle ⟨fun _ => 0, ⟨false, false, false, false⟩, fun _ => 0⟩
    exact Full.fits_of_steps h hscale hwidth hone
  · intro hfits env c
    obtain ⟨hlt, haddress⟩ := Full.address_of_fits hwidth hscale hfits
    obtain ⟨i, hdecode, hi⟩ := Full.decode_ldst h hscale d n hlt
    obtain ⟨hdisp, htraps, haccess, hexec⟩ := hi env 0 c
    rw [List.length_singleton, Full.steps_word, hdecode]
    dsimp only
    rw [htraps, if_neg Bool.false_ne_true, hdisp, haccess, hexec, haddress, hwidth]
    rfl

/-- A word that stores. -/
theorem storesAt_ldst_iff {op : U32} {scale : ℕ} (h : Full.IsTransfer op false scale)
    (hscale : scale < 4) {s : Reg} (hs : s ≠ 31) (n : Reg) (off : I16) {width : MemWidth}
    (hwidth : width.byteLen = 2 ^ scale) :
    StoresAt [ldst op scale (s.setWidth 8) (n.setWidth 8) off] s n width off ↔
      OffsetFits width off := by
  constructor
  · intro hstores
    have hone := hstores .idle ⟨fun _ => 0, ⟨false, false, false, false⟩, fun _ => 0⟩
    exact Full.fits_of_steps h hscale hwidth hone
  · intro hfits env c
    obtain ⟨hlt, haddress⟩ := Full.address_of_fits hwidth hscale hfits
    obtain ⟨i, hdecode, hi⟩ := Full.decode_ldst h hscale s n hlt
    obtain ⟨hdisp, htraps, haccess, hexec⟩ := hi env 0 c
    rw [List.length_singleton, Full.steps_word, hdecode]
    dsimp only
    rw [htraps, if_neg Bool.false_ne_true, hdisp, haccess, hexec, haddress, hwidth]
    dsimp only [Full.Instr.execTransfer]
    rw [c.get_true hs]
    rfl

/-- Loads, on AArch64. -/
theorem loadNode_iff (width : MemWidth) (d n : Reg) (off : I16) :
    LoadsAt (emitLoadNode width (physOf d) (physOf n) off) d n width off ↔
      OffsetFits width off := by
  cases width with
  | b => exact loadsAt_ldst_iff (by decide : Full.IsTransfer _ true 0) (by decide) d n off rfl
  | h => exact loadsAt_ldst_iff (by decide : Full.IsTransfer _ true 1) (by decide) d n off rfl
  | w => exact loadsAt_ldst_iff (by decide : Full.IsTransfer _ true 2) (by decide) d n off rfl
  | dw => exact loadsAt_ldst_iff (by decide : Full.IsTransfer _ true 3) (by decide) d n off rfl

/-- Stores, on AArch64. -/
theorem storeNode_iff (width : MemWidth) {s : Reg} (hs : s ≠ 31) (n : Reg) (off : I16) :
    StoresAt (emitStoreNode width (physOf n) (physOf s) off) s n width off ↔
      OffsetFits width off := by
  cases width with
  | b => exact storesAt_ldst_iff (by decide : Full.IsTransfer _ false 0) (by decide) hs n off rfl
  | h => exact storesAt_ldst_iff (by decide : Full.IsTransfer _ false 1) (by decide) hs n off rfl
  | w => exact storesAt_ldst_iff (by decide : Full.IsTransfer _ false 2) (by decide) hs n off rfl
  | dw => exact storesAt_ldst_iff (by decide : Full.IsTransfer _ false 3) (by decide) hs n off rfl

end Aarch64

/-! ### RISC-V -/

namespace Riscv

open Fields

/-- The accesses of an instruction, in this state. -/
def Instr.accesses (env : Env) (c : Cpu) : Instr → List Access
  | .load size _ _ s1 imm12 => [⟨false, c.get s1 + imm12.signExtend 64, 2 ^ size.toNat⟩]
  | .store size _ s1 imm12 => [⟨true, c.get s1 + imm12.signExtend 64, 2 ^ size.toNat⟩]
  | .amo _ _ _ s1 => [⟨false, c.get s1, 8⟩, ⟨true, c.get s1, 8⟩]
  | .loadReserved _ s1 => [⟨false, c.get s1, 8⟩]
  | .storeConditional _ _ s1 =>
    if env.succeeds c.reserved (c.get s1) then [⟨true, c.get s1, 8⟩] else []
  | _ => []

/-- The accesses of the next instruction. -/
def accesses (env : Env) (code : List U8) (m : Machine) : List Access :=
  ((fetchU32 code m.pc).bind decode).elim [] (Instr.accesses env m.toCpu)

/-- A single word. -/
theorem steps_word {env : Env} {w : U32} {i : Instr} (hdecode : decode w = some i) {c : Cpu}
    (htraps : i.traps env c = false) :
    steps (traced (step env (ofWords [w])) (accesses env (ofWords [w]))) (⟨c, 0⟩, []) 1 =
      .ok (⟨i.exec env 0 c, i.displacement c⟩, i.accesses env c) := by
  have hfetch : fetchU32 (ofWords [w]) 0 = some w := fetchU32_ofWords (i := 0) rfl
  rw [steps_one]
  unfold traced accesses
  dsimp only
  rw [step_of_fetch env hfetch hdecode htraps, ok_bind, hfetch, Option.bind_some, hdecode, zero_add]
  rfl

/-- **The words load** `width` bytes at base and offset, extend them with zeros, and do nothing
else. -/
def LoadsAt (ws : List U32) (d n : Reg) (width : MemWidth) (off : I16) : Prop :=
  ∀ (env : Env) (c : Cpu),
    let address := c.x n + off.signExtend 64
    let bits := loadLe (8 * width.byteLen) width.byteLen c.mem address
    steps (traced (step env (ofWords ws)) (accesses env (ofWords ws))) (⟨c, 0⟩, []) ws.length =
      .ok (⟨c.set d (bits.setWidth 64), 4 * ws.length⟩, [⟨false, address, width.byteLen⟩])

/-- **The words store** the low `width` bytes of a register at base and offset, and do nothing
else. -/
def StoresAt (ws : List U32) (s n : Reg) (width : MemWidth) (off : I16) : Prop :=
  ∀ (env : Env) (c : Cpu),
    let address := c.x n + off.signExtend 64
    steps (traced (step env (ofWords ws)) (accesses env (ofWords ws))) (⟨c, 0⟩, []) ws.length =
      .ok (⟨{ c with mem := storeLe width.byteLen c.mem address (c.x s) }, 4 * ws.length⟩,
        [⟨true, address, width.byteLen⟩])

/-- The offset has 12 bits and a sign. -/
def OffsetFits (off : I16) : Prop := -2048 ≤ off.toInt ∧ off.toInt < 2048

/-- The field of an offset is that offset. -/
theorem field_eq_offset_iff (off : I16) :
    ((off.signExtend 32).setWidth 12).signExtend 64 = off.signExtend 64 ↔ OffsetFits off := by
  have hlt := off.isLt
  have hint := BitVec.toInt_eq_toNat_cond off
  have hlow : (off.signExtend 32).setWidth 12 = off.setWidth 12 := by
    ext i hi
    have hlt : i < 16 := by omega
    have hlt' : i < 32 := by omega
    simp [BitVec.getElem_signExtend, hlt, hlt']
  rw [← BitVec.toInt_inj, BitVec.toInt_signExtend_of_le (by decide),
    BitVec.toInt_signExtend_of_le (by decide), hlow, BitVec.toInt_setWidth, Int.bmod_def, hint]
  unfold OffsetFits
  rw [hint]
  split_ifs <;> omega

variable {w : U32}

theorem loadsAt_iff {size : BitVec 2} {unsigned : Bool} {d n : Reg} {off : I16}
    (hdecode : decode w = some (.load size unsigned d n ((off.signExtend 32).setWidth 12)))
    (hn : n ≠ 0) {width : MemWidth} (hwidth : width.byteLen = 2 ^ size.toNat)
    (hunsigned : unsigned = true ∨ width = .dw) :
    LoadsAt [w] d n width off ↔ OffsetFits off := by
  rw [← field_eq_offset_iff]
  constructor
  · intro hloads
    have hone := hloads .idle ⟨fun _ => 0, fun _ => 0, none⟩
    rw [List.length_singleton, steps_word hdecode rfl] at hone
    have haccess := congrArg Prod.snd (Except.ok.inj hone)
    simp only [Instr.accesses, List.cons.injEq, Access.mk.injEq, Cpu.get_of_ne _ hn,
      BitVec.add_right_inj] at haccess
    exact haccess.1.2.1
  · intro haddress env c
    rw [List.length_singleton, steps_word hdecode rfl]
    dsimp only [Instr.exec, Instr.effect, Instr.accesses]
    rw [haddress, c.get_of_ne hn, ← hwidth]
    rcases hunsigned with rfl | rfl
    · rfl
    · have height : ∀ v : BitVec (8 * MemWidth.dw.byteLen), v.signExtend 64 = v.setWidth 64 := by
        intro v
        exact (BitVec.signExtend_eq v).trans (BitVec.setWidth_eq v).symm
      rw [height, ite_self]
      rfl

theorem storesAt_iff {size : BitVec 2} {n r : Reg} {off : I16}
    (hdecode : decode w = some (.store size r n ((off.signExtend 32).setWidth 12)))
    (hn : n ≠ 0) (hr : r ≠ 0) {width : MemWidth} (hwidth : width.byteLen = 2 ^ size.toNat) :
    StoresAt [w] r n width off ↔ OffsetFits off := by
  rw [← field_eq_offset_iff]
  constructor
  · intro hstores
    have hone := hstores .idle ⟨fun _ => 0, fun _ => 0, none⟩
    rw [List.length_singleton, steps_word hdecode rfl] at hone
    have haccess := congrArg Prod.snd (Except.ok.inj hone)
    simp only [Instr.accesses, List.cons.injEq, Access.mk.injEq, Cpu.get_of_ne _ hn,
      BitVec.add_right_inj] at haccess
    exact haccess.1.2.1
  · intro haddress env c
    rw [List.length_singleton, steps_word hdecode rfl]
    dsimp only [Instr.exec, Instr.effect, Instr.accesses]
    rw [haddress, c.get_of_ne hn, c.get_of_ne hr, ← hwidth]
    rfl

/-- Loads, on RISC-V. -/
theorem loadNode_iff (width : MemWidth) (d : Reg) {n : Reg} (hn : n ≠ 0) (off : I16) :
    LoadsAt (emitLoadNode width (physOf d) (physOf n) off) d n width off ↔ OffsetFits off := by
  cases width with
  | b => exact loadsAt_iff (decode_load 4 (by decide) d n _) hn rfl (Or.inl rfl)
  | h => exact loadsAt_iff (decode_load 5 (by decide) d n _) hn rfl (Or.inl rfl)
  | w => exact loadsAt_iff (decode_load 6 (by decide) d n _) hn rfl (Or.inl rfl)
  | dw => exact loadsAt_iff (decode_load 3 (by decide) d n _) hn rfl (Or.inr rfl)

/-- Stores, on RISC-V. -/
theorem storeNode_iff (width : MemWidth) {n r : Reg} (hn : n ≠ 0) (hr : r ≠ 0) (off : I16) :
    StoresAt (emitStoreNode width (physOf n) (physOf r) off) r n width off ↔ OffsetFits off := by
  cases width with
  | b => exact storesAt_iff (decode_store 0 rfl r n _) hn hr rfl
  | h => exact storesAt_iff (decode_store 1 rfl r n _) hn hr rfl
  | w => exact storesAt_iff (decode_store 2 rfl r n _) hn hr rfl
  | dw => exact storesAt_iff (decode_store 3 rfl r n _) hn hr rfl

end Riscv

/-! ### Both targets -/

/-- **The offsets that loads and stores reach.**  The fields of AArch64 hold multiples of the width
from 0 on, those of RISC-V 12 bits with a sign; no AArch64 node has a negative offset. -/
theorem memory_nodes_iff (width : MemWidth) (d b : BpfReg) (off : I16) :
    let da := Aarch64.xreg d
    let ba := Aarch64.xreg b
    let dr := Riscv.xreg d
    let br := Riscv.xreg b
    (Aarch64.LoadsAt (Aarch64.emitLoadNode width (aarch64Regmap.phys d) (aarch64Regmap.phys b) off)
        da ba width off ↔ Aarch64.OffsetFits width off) ∧
      (Aarch64.StoresAt
        (Aarch64.emitStoreNode width (aarch64Regmap.phys b) (aarch64Regmap.phys d) off) da ba width
        off ↔ Aarch64.OffsetFits width off) ∧
      (Riscv.LoadsAt (Riscv.emitLoadNode width (riscv64Regmap.phys d) (riscv64Regmap.phys b) off)
        dr br width off ↔ Riscv.OffsetFits off) ∧
      (Riscv.StoresAt (Riscv.emitStoreNode width (riscv64Regmap.phys b) (riscv64Regmap.phys d) off)
        dr br width off ↔ Riscv.OffsetFits off) := by
  intro da ba dr br
  rw [Aarch64.phys_eq, Aarch64.phys_eq, Riscv.phys_eq, Riscv.phys_eq]
  exact ⟨Aarch64.loadNode_iff width da ba off, Aarch64.storeNode_iff width
    (Aarch64.xreg_free d).2.2.2.2 ba off, Riscv.loadNode_iff width dr (Riscv.xreg_ne_zero b)
    off, Riscv.storeNode_iff width (Riscv.xreg_ne_zero b) (Riscv.xreg_ne_zero d) off⟩

/-- A word at `r10 - 8` is not loaded from there on AArch64. -/
theorem memory_nodes_below_r10 :
    ¬ Aarch64.LoadsAt
      (Aarch64.emitLoadNode .dw (aarch64Regmap.phys BpfReg.r1) (aarch64Regmap.phys BpfReg.r10) (-8))
      (Aarch64.xreg BpfReg.r1) (Aarch64.xreg BpfReg.r10) .dw (-8) := by
  intro h
  rw [Aarch64.phys_eq, Aarch64.phys_eq, Aarch64.loadNode_iff] at h
  exact absurd h.1 (by decide)

end NVMirror
