import NVMirror.JitAarch64.Line
import NVMirror.JitAarch64.Nodes

/-!
# Frames on the machine

A prologue moves the stack pointer and saves seven registers in slots above it (`frameSlots`); an
epilogue loads them again.  `MOV X29, SP` is encoded as a move of the zero register, so `X29` is 0
inside the frame.
-/

namespace NVMirror.Aarch64

open Rust Bytes

/-- The slots of a frame: offset from the stack pointer, register. -/
def frameSlots : List (ℕ × Reg) :=
  [(0, 29), (8, 30), (16, 19), (24, 20), (32, 21), (40, 22), (48, 25)]

/-- The order in which an epilogue loads the slots. -/
def loadOrder : List (ℕ × Reg) :=
  [(16, 19), (24, 20), (32, 21), (40, 22), (48, 25), (0, 29), (8, 30)]

/-- The frame at the stack pointer of `c` holds the registers of `orig`. -/
def Saved (orig c : Cpu) : Prop :=
  ∀ slot ∈ frameSlots, c.load64 (addrAt (c.x 31) slot.1) = orig.x slot.2

/-- The offset of a pair instruction, as its encoding gives it back. -/
def pairOffset (off : I16) : U64 := ((off.sdiv 8).setWidth 7).signExtend 64 * 8

/-- The state after a prologue. -/
def afterPrologue (frameSize : U16) (c : Cpu) : Cpu where
  x := Function.update (Function.update c.x 31 (c.x 31 + pairOffset (-frameSize))) 29 0
  flags := c.flags
  mem := storeSlots c.mem (c.x 31 + pairOffset (-frameSize))
    (frameSlots.map fun slot => (slot.1, c.x slot.2))

/-! ### Stores and loads of the frame -/

theorem addrAt_add (sp : U64) (k j : ℕ) : addrAt (addrAt sp k) j = addrAt sp (k + j) := by
  unfold addrAt
  rw [BitVec.add_assoc, BitVec.ofNat_add]

theorem addrAt_zero (sp : U64) : addrAt sp 0 = sp := BitVec.add_zero sp

/-- `STP` with an offset from the stack pointer. -/
theorem exec_stp (t1 t2 : Reg) (k : ℕ) (h1 : t1 ≠ 31) (h2 : t2 ≠ 31) {imm7 : BitVec 7}
    (hk : imm7.signExtend 64 * 8 = BitVec.ofNat 64 k) (c : Cpu) :
    (Instr.pair .offset false t1 t2 31 imm7).exec c =
      { c with mem := storeSlots c.mem (c.x 31) [(k, c.x t1), (k + 8, c.x t2)] } := by
  dsimp only [Instr.exec, Instr.execPair]
  rw [hk, if_neg Bool.false_ne_true, c.get_true h1, c.get_true h2]
  have haddr : c.x 31 + BitVec.ofNat 64 k + 8 = addrAt (c.x 31) (k + 8) := addrAt_add (c.x 31) k 8
  rw [haddr]
  rfl

/-- `LDP` with an offset from the stack pointer. -/
theorem exec_ldp (t1 t2 : Reg) (k : ℕ) {imm7 : BitVec 7}
    (hk : imm7.signExtend 64 * 8 = BitVec.ofNat 64 k) (c : Cpu) :
    (Instr.pair .offset true t1 t2 31 imm7).exec c =
      (c.set t1 (c.load64 (addrAt (c.x 31) k))).set t2 (c.load64 (addrAt (c.x 31) (k + 8))) := by
  dsimp only [Instr.exec, Instr.execPair]
  have haddr : c.x 31 + BitVec.ofNat 64 k + 8 = addrAt (c.x 31) (k + 8) := addrAt_add (c.x 31) k 8
  rw [hk, if_pos rfl, haddr]
  rfl

/-! ### Prologue and epilogue -/

theorem prologue_line [Profile] {ε : Type} {frameSize : U16} (h : frameSize.toNat < 2 ^ 15) :
    ∃ ws, emitPrologue (ε := ε) frameSize = .ok ws ∧
      ∀ c : Cpu, Line ws c (afterPrologue frameSize c) := by
  have hneg : BitVec.negOverflow frameSize = false := by
    have hint := BitVec.toInt_eq_toNat_cond frameSize
    rw [if_pos (by omega)] at hint
    rw [BitVec.negOverflow]
    exact beq_eq_false_iff_ne.2 (by omega)
  have hemit : emitPrologue (ε := ε) frameSize = .ok [stpPre 29 30 31 (-frameSize), movXReg 29 31,
      stpOffset 19 20 31 16, stpOffset 21 22 31 32, strXImm 25 31 48] := by
    unfold emitPrologue negS
    rw [overflowing_of_not hneg]
    rfl
  refine ⟨_, hemit, fun c => ?_⟩
  have h1 : decode (stpPre 29 30 31 (-frameSize)) =
      some (.pair .preIndex false 29 30 31 (((-frameSize).sdiv 8).setWidth 7)) :=
    decode_ldstPair (by decide) 29 30 31 _
  have h2 : decode (movXReg 29 31) = some (.data .orr true 29 31 31) := by decide
  have h3 : decode (stpOffset 19 20 31 16) = some (.pair .offset false 19 20 31 2) := by decide
  have h4 : decode (stpOffset 21 22 31 32) = some (.pair .offset false 21 22 31 4) := by decide
  have h5 : decode (strXImm 25 31 48) = some (.loadStore false 25 31 6) := by decide
  -- from the third instruction on only memory changes
  let sp := c.x 31 + pairOffset (-frameSize)
  let x := Function.update (Function.update c.x 31 sp) 29 0
  have e1 : (Instr.pair .preIndex false 29 30 31 (((-frameSize).sdiv 8).setWidth 7)).exec c =
      ⟨Function.update c.x 31 sp, c.flags, storeSlots c.mem sp [(0, c.x 29), (8, c.x 30)]⟩ := by
    have hzero : storeLe 8 c.mem (addrAt sp 0) (c.x 29) = storeLe 8 c.mem sp (c.x 29) := by
      rw [addrAt_zero]
    dsimp only [Instr.exec, Instr.execPair, storeSlots, List.foldl]
    rw [if_neg Bool.false_ne_true, c.get_true (by decide), c.get_true (by decide), hzero]
    rfl
  have e2 : ∀ c' : Cpu, (Instr.data .orr true 29 31 31).exec c' = c'.setSp 29 0 := by
    intro c'
    dsimp only [Instr.exec, DataOp.setFlags, DataOp.eval]
    rw [c'.get_zero]
    rfl
  have e5 : ∀ mem, (Instr.loadStore false 25 31 6).exec ⟨x, c.flags, mem⟩ =
      ⟨x, c.flags, storeSlots mem sp [(48, c.x 25)]⟩ := by
    intro mem
    dsimp only [Instr.exec]
    rw [if_neg Bool.false_ne_true, Cpu.get_true _ (by decide)]
    rfl
  refine Line.cons h1 rfl (Line.cons h2 rfl (Line.cons h3 rfl (Line.cons h4 rfl
    (Line.cons h5 rfl ?_))))
  rw [e1, e2, exec_stp 19 20 16 (by decide) (by decide) (by decide),
    exec_stp 21 22 32 (by decide) (by decide) (by decide)]
  have hx : ∀ r : Reg, r ≠ 31 → r ≠ 29 → x r = c.x r := by
    intro r h31 h29
    dsimp only [x]
    rw [Function.update_of_ne h29, Function.update_of_ne h31]
  have hsp : x 31 = sp := by
    dsimp only [x]
    rw [Function.update_of_ne (by decide), Function.update_self]
  have hset : ∀ mem, Cpu.setSp ⟨Function.update c.x 31 sp, c.flags, mem⟩ 29 0 = ⟨x, c.flags, mem⟩ :=
    fun mem => rfl
  rw [hset]
  dsimp only
  rw [e5, hsp, hx 19 (by decide) (by decide), hx 20 (by decide) (by decide),
    hx 21 (by decide) (by decide), hx 22 (by decide) (by decide), storeSlots_append,
    storeSlots_append, storeSlots_append]
  exact Line.nil _

/-- A prologue saves the registers. -/
theorem saved_afterPrologue (frameSize : U16) (c : Cpu) : Saved c (afterPrologue frameSize c) := by
  intro slot hslot
  have hlt : ∀ slot ∈ frameSlots, slot.1 < 2 ^ 32 := by decide
  have hpair : frameSlots.Pairwise fun s t => s.1 + 8 ≤ t.1 := by decide
  refine loadLe_storeSlots c.mem _ (fun s hs => ?_)
    (List.Pairwise.map _ (fun _ _ h => Or.inl h) hpair) (List.mem_map.2 ⟨slot, hslot, rfl⟩)
  obtain ⟨s', hs', rfl⟩ := List.mem_map.1 hs
  exact hlt s' hs'

/-- Write several registers. -/
def Cpu.setAll (c : Cpu) (vals : List (Reg × U64)) : Cpu := vals.foldl (fun c p => c.set p.1 p.2) c

theorem Cpu.setAll_mem (c : Cpu) (vals : List (Reg × U64)) : (c.setAll vals).mem = c.mem := by
  induction vals generalizing c with
  | nil => rfl
  | cons p rest ih => exact (ih _).trans (c.set_mem p.2)

theorem Cpu.setAll_x_of_notMem (c : Cpu) {vals : List (Reg × U64)} {r : Reg}
    (h : ∀ p ∈ vals, p.1 ≠ r) : (c.setAll vals).x r = c.x r := by
  induction vals generalizing c with
  | nil => rfl
  | cons p rest ih =>
    have hrest := ih (c.set p.1 p.2) fun q hq => h q (List.mem_cons_of_mem _ hq)
    exact hrest.trans (c.set_x_of_ne p.2 (h p List.mem_cons_self).symm)

theorem Cpu.setAll_x_of_mem (c : Cpu) {vals : List (Reg × U64)} (h31 : ∀ p ∈ vals, p.1 ≠ 31)
    (hpair : vals.Pairwise fun p q => q.1 ≠ p.1) {r : Reg} {v : U64} (h : (r, v) ∈ vals) :
    (c.setAll vals).x r = v := by
  induction vals generalizing c with
  | nil => cases h
  | cons p rest ih =>
    obtain ⟨hfirst, hpair⟩ := List.pairwise_cons.1 hpair
    rcases List.mem_cons.1 h with rfl | hmem
    · have hkeep := Cpu.setAll_x_of_notMem (c.set r v) hfirst
      exact hkeep.trans (c.set_x_self v (h31 _ List.mem_cons_self))
    · exact ih (c.set p.1 p.2) (fun q hq => h31 q (List.mem_cons_of_mem _ hq)) hpair hmem

/-- **An epilogue** loads the slots, then moves the stack pointer. -/
theorem epilogue_line (frameSize : U16) (c : Cpu) :
    ∃ c', Line (emitEpilogue frameSize) c c' ∧ c'.x 31 = c.x 31 + pairOffset frameSize ∧
      (∀ slot ∈ frameSlots, c'.x slot.2 = c.load64 (addrAt (c.x 31) slot.1)) ∧
      (∀ r, r ≠ 31 → (∀ slot ∈ frameSlots, slot.2 ≠ r) → c'.x r = c.x r) ∧ c'.mem = c.mem := by
  have h1 : decode (ldpOffset 19 20 31 16) = some (.pair .offset true 19 20 31 2) := by decide
  have h2 : decode (ldpOffset 21 22 31 32) = some (.pair .offset true 21 22 31 4) := by decide
  have h3 : decode (ldrXImm 25 31 48) = some (.loadStore true 25 31 6) := by decide
  have h4 : decode (ldpPost 29 30 31 frameSize) =
      some (.pair .postIndex true 29 30 31 ((frameSize.sdiv 8).setWidth 7)) :=
    decode_ldstPair (by decide) 29 30 31 _
  -- all loads see the memory and the stack pointer of `c`
  obtain ⟨vals, hvals⟩ : ∃ vals, vals = loadOrder.map fun slot =>
      (slot.2, c.load64 (addrAt (c.x 31) slot.1)) := ⟨_, rfl⟩
  have hsp : ∀ (c : Cpu) (r : Reg) (v : U64), r ≠ 31 → (c.set r v).x 31 = c.x 31 :=
    fun c r v h => c.set_x_of_ne v h.symm
  have e3 : ∀ c : Cpu, (Instr.loadStore true 25 31 6).exec c =
      c.set 25 (c.load64 (addrAt (c.x 31) 48)) := fun c => rfl
  have e4 : ∀ c : Cpu,
      (Instr.pair .postIndex true 29 30 31 ((frameSize.sdiv 8).setWidth 7)).exec c =
        ((c.set 29 (c.load64 (addrAt (c.x 31) 0))).set 30 (c.load64 (addrAt (c.x 31) 8))).setSp 31
          (c.x 31 + pairOffset frameSize) := by
    intro c
    rw [addrAt_zero]
    rfl
  have hline : Line (emitEpilogue frameSize) c
      ((c.setAll vals).setSp 31 (c.x 31 + pairOffset frameSize)) := by
    refine Line.cons h1 rfl (Line.cons h2 rfl (Line.cons h3 rfl (Line.cons h4 rfl ?_)))
    rw [exec_ldp 19 20 16 (by decide), exec_ldp 21 22 32 (by decide), e3, e4]
    simp only [Cpu.set_load64, hsp _ 19 _ (by decide), hsp _ 20 _ (by decide),
      hsp _ 21 _ (by decide), hsp _ 22 _ (by decide), hsp _ 25 _ (by decide)]
    rw [hvals]
    exact Line.nil _
  have hslots : ∀ slot ∈ frameSlots, slot ∈ loadOrder ∧ slot.2 ≠ 31 := by decide
  have horder : ∀ slot ∈ loadOrder, slot ∈ frameSlots := by decide
  have hpair : loadOrder.Pairwise fun s t => t.2 ≠ s.2 := by decide
  have hmem : ∀ p ∈ vals, ∃ slot ∈ frameSlots, slot.2 = p.1 := by
    rw [hvals]
    intro p hp
    obtain ⟨slot, hslot, rfl⟩ := List.mem_map.1 hp
    exact ⟨slot, horder slot hslot, rfl⟩
  refine ⟨_, hline, Cpu.setSp_x_self _ _, fun slot hslot => ?_, fun r h31 hr => ?_, ?_⟩
  · rw [Cpu.setSp_x_of_ne _ _ (hslots slot hslot).2]
    refine c.setAll_x_of_mem (fun p hp => ?_) ?_ ?_
    · obtain ⟨slot', hslot', heq⟩ := hmem p hp
      rw [← heq]
      exact (hslots slot' hslot').2
    · rw [hvals]
      exact List.Pairwise.map _ (fun _ _ h => h) hpair
    · rw [hvals]
      exact List.mem_map.2 ⟨slot, (hslots slot hslot).1, rfl⟩
  · rw [Cpu.setSp_x_of_ne _ _ h31]
    refine c.setAll_x_of_notMem fun p hp heq => ?_
    obtain ⟨slot, hslot, hslot'⟩ := hmem p hp
    exact hr slot hslot (hslot'.trans heq)
  · rw [Cpu.setSp_mem, Cpu.setAll_mem]

end NVMirror.Aarch64
