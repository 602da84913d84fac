import NVMirror.JitRiscv.Branch
import NVMirror.JitRegalloc.FrameSize

/-!
# Frames on the machine

A prologue moves the stack pointer down, saves seven registers in slots below the top of the frame
(`frameSlots`) and sets `s0` to the top; an epilogue loads them again.

* `prologue_line`: the state after a prologue, which has `Saved` the registers.
* `epilogue_line`: an epilogue loads the slots, then moves the stack pointer.
-/

namespace NVMirror.Riscv

open Rust Bytes Fields

/-- The slots of a frame: distance from its top, register. -/
def frameSlots : List (ℕ × Reg) :=
  [(8, 1), (16, 8), (24, 18), (32, 19), (40, 20), (48, 21), (56, 22)]

/-- The frame of size `f` at the stack pointer of `c` holds the registers of `orig`. -/
def Saved (f : U16) (orig c : Cpu) : Prop :=
  ∀ slot ∈ frameSlots, c.load64 (addrAt (c.x 2) (f.toNat - slot.1)) = orig.x slot.2

/-- The stack pointer inside the frame. -/
def frameSp (f : U16) (c : Cpu) : U64 := c.x 2 - BitVec.ofNat 64 f.toNat

/-- The state after a prologue. -/
def afterPrologue (f : U16) (c : Cpu) : Cpu where
  x := Function.update (Function.update c.x 2 (frameSp f c)) 8 (c.x 2)
  mem := storeSlots c.mem (frameSp f c)
    (frameSlots.map fun slot => (f.toNat - slot.1, c.x slot.2))
  reserved := c.reserved

/-! ### Displacements -/

section

variable {f : U16}

/-- Frames are multiples of 16 bytes. -/
theorem frame_cases (h : FrameSize f) (hpos : 0 < f) :
    ∃ m < 33, 4 ≤ m ∧ f = BitVec.ofNat 16 (16 * m) ∧ f.toNat = 16 * m := by
  obtain ⟨m, hm⟩ := h.dvd
  have hle := h.le
  have hge := h.ge (by rintro rfl; exact absurd hpos (by decide))
  refine ⟨m, by omega, by omega, ?_, hm⟩
  rw [← hm, BitVec.ofNat_toNat, BitVec.setWidth_eq]

/-- Down by the frame size. -/
theorem signExtend_down (h : FrameSize f) (hpos : 0 < f) :
    ((-(f.setWidth 32)).setWidth 12 : BitVec 12).signExtend 64 = -BitVec.ofNat 64 f.toNat := by
  have hall : ∀ m < 33, ((-((BitVec.ofNat 16 (16 * m)).setWidth 32)).setWidth 12 :
      BitVec 12).signExtend 64 = -BitVec.ofNat 64 (16 * m) := by
    decide
  obtain ⟨m, hm, -, hf, hval⟩ := frame_cases h hpos
  rw [hval, hf]
  exact hall m hm

/-- Up by the frame size. -/
theorem signExtend_up (h : FrameSize f) (hpos : 0 < f) :
    ((f.setWidth 32).setWidth 12 : BitVec 12).signExtend 64 = BitVec.ofNat 64 f.toNat := by
  have hall : ∀ m < 33, (((BitVec.ofNat 16 (16 * m)).setWidth 32).setWidth 12 :
      BitVec 12).signExtend 64 = BitVec.ofNat 64 (16 * m) := by
    decide
  obtain ⟨m, hm, -, hf, hval⟩ := frame_cases h hpos
  rw [hval, hf]
  exact hall m hm

/-- To a slot. -/
theorem signExtend_slot (h : FrameSize f) (hpos : 0 < f) {slot : ℕ × Reg}
    (hslot : slot ∈ frameSlots) :
    ((slotOff f (BitVec.ofNat 32 slot.1)).setWidth 12 : BitVec 12).signExtend 64 =
      BitVec.ofNat 64 (f.toNat - slot.1) := by
  have hall : ∀ m < 33, 4 ≤ m → ∀ slot ∈ frameSlots,
      ((slotOff (BitVec.ofNat 16 (16 * m)) (BitVec.ofNat 32 slot.1)).setWidth 12 :
        BitVec 12).signExtend 64 = BitVec.ofNat 64 (16 * m - slot.1) := by
    decide
  obtain ⟨m, hm, hm4, hf, hval⟩ := frame_cases h hpos
  rw [hval, hf]
  exact hall m hm hm4 slot hslot

/-! ### Stores and loads of the frame -/

/-- The words that save registers. -/
def saveWord (f : U16) (slot : ℕ × Reg) : U32 :=
  sd (slot.2.setWidth 8) 2 (slotOff f (BitVec.ofNat 32 slot.1))

def restoreWord (f : U16) (slot : ℕ × Reg) : U32 :=
  ld (slot.2.setWidth 8) 2 (slotOff f (BitVec.ofNat 32 slot.1))

theorem prologueWords_eq (f : U16) : prologueWords f =
    [addi 2 2 (-(f.setWidth 32))] ++ (frameSlots.map (saveWord f) ++ [addi 8 2 (f.setWidth 32)]) :=
  rfl

theorem epilogueWords_eq (f : U16) : epilogueWords f =
    frameSlots.reverse.map (restoreWord f) ++ [addi 2 2 (f.setWidth 32)] :=
  rfl

/-- Stores at slots. -/
theorem line_save (h : FrameSize f) (hpos : 0 < f) {slots : List (ℕ × Reg)}
    (hsub : ∀ slot ∈ slots, slot ∈ frameSlots) (c : Cpu) :
    Line (slots.map (saveWord f)) c { c with
      mem := storeSlots c.mem (c.x 2) (slots.map fun slot => (f.toNat - slot.1, c.x slot.2)) } := by
  induction slots generalizing c with
  | nil => exact Line.nil c
  | cons slot rest ih =>
    have hmem := hsub slot List.mem_cons_self
    have hne : ∀ slot ∈ frameSlots, slot.2 ≠ 0 := by decide
    have hdecode := decode_store 3 (by decide) slot.2 2 (slotOff f (BitVec.ofNat 32 slot.1))
    refine Line.cons hdecode rfl ?_
    have heffect : (Instr.store (field (3 : BitVec 3) 0 2) slot.2 2
        ((slotOff f (BitVec.ofNat 32 slot.1)).setWidth 12)).effect c =
        { c with mem := storeLe 8 c.mem (addrAt (c.x 2) (f.toNat - slot.1)) (c.x slot.2) } := by
      dsimp only [Instr.effect]
      rw [signExtend_slot h hpos hmem, c.get_of_ne (hne slot hmem), c.get_of_ne (by decide)]
      rfl
    rw [heffect]
    exact ih (fun s hs => hsub s (List.mem_cons_of_mem _ hs)) _

/-- Loads from slots. -/
theorem line_restore (h : FrameSize f) (hpos : 0 < f) {slots : List (ℕ × Reg)}
    (hsub : ∀ slot ∈ slots, slot ∈ frameSlots) (hpair : slots.Pairwise fun s t => t.2 ≠ s.2)
    (c : Cpu) : ∃ c', Line (slots.map (restoreWord f)) c c' ∧ c'.mem = c.mem ∧
      (∀ slot ∈ slots, c'.x slot.2 = c.load64 (addrAt (c.x 2) (f.toNat - slot.1))) ∧
      ∀ r, (∀ slot ∈ slots, slot.2 ≠ r) → c'.x r = c.x r := by
  induction slots generalizing c with
  | nil => exact ⟨c, Line.nil c, rfl, fun slot hslot => (by cases hslot), fun r _ => rfl⟩
  | cons slot rest ih =>
    obtain ⟨hfirst, hpair⟩ := List.pairwise_cons.1 hpair
    have hmem := hsub slot List.mem_cons_self
    have hne : ∀ slot ∈ frameSlots, slot.2 ≠ 0 ∧ slot.2 ≠ 2 := by decide
    obtain ⟨h0, h2⟩ := hne slot hmem
    have hdecode := decode_load 3 (by decide) slot.2 2 (slotOff f (BitVec.ofNat 32 slot.1))
    let v := c.load64 (addrAt (c.x 2) (f.toNat - slot.1))
    have heffect : (Instr.load (field (3 : BitVec 3) 0 2) (field (3 : BitVec 3) 2 1 = 1) slot.2 2
        ((slotOff f (BitVec.ofNat 32 slot.1)).setWidth 12)).effect c = c.set slot.2 v := by
      dsimp only [Instr.effect]
      rw [signExtend_slot h hpos hmem, c.get_of_ne (by decide)]
      exact congrArg (c.set slot.2) (BitVec.signExtend_eq v)
    have hsp : (c.set slot.2 v).x 2 = c.x 2 := c.set_x_of_ne v h2.symm
    obtain ⟨c', hline, hmem', hloads, hother⟩ :=
      ih (fun s hs => hsub s (List.mem_cons_of_mem _ hs)) hpair (c.set slot.2 v)
    refine ⟨c', Line.cons hdecode rfl (heffect ▸ hline), hmem'.trans (c.set_mem v),
      fun s hs => ?_, fun r hr => ?_⟩
    · rcases List.mem_cons.1 hs with rfl | hs
      · rw [hother s.2 hfirst, c.set_x_self v h0]
      · rw [hloads s hs, hsp, Cpu.load64, Cpu.load64, c.set_mem]
    · rw [hother r fun s hs => hr s (List.mem_cons_of_mem _ hs),
        c.set_x_of_ne v (hr slot List.mem_cons_self).symm]

/-! ### Prologue and epilogue -/

/-- Addition of the frame size. -/
theorem decode_up (f : U16) (d : Reg) : decode (addi (d.setWidth 8) 2 (f.setWidth 32)) =
    some (.opImm .add d 2 ((f.setWidth 32).setWidth 12)) :=
  decode_opImm 0 rfl d 2 _

/-- **A prologue.** -/
theorem prologue_line (h : FrameSize f) (hpos : 0 < f) (c : Cpu) :
    Line (prologueWords f) c (afterPrologue f c) := by
  have hdown : decode (addi 2 2 (-(f.setWidth 32))) =
      some (.opImm .add 2 2 ((-(f.setWidth 32)).setWidth 12)) := decode_opImm 0 rfl 2 2 _
  let c₁ : Cpu := { c with x := Function.update c.x 2 (frameSp f c) }
  have h1 : (Instr.opImm .add 2 2 ((-(f.setWidth 32)).setWidth 12)).effect c = c₁ := by
    dsimp only [Instr.effect, DataOp.eval]
    rw [signExtend_down h hpos, c.get_of_ne (by decide), ← BitVec.sub_eq_add_neg]
    rfl
  have hx : ∀ r : Reg, r ≠ 2 → c₁.x r = c.x r := fun r hr => Function.update_of_ne hr _ _
  have hsp : c₁.x 2 = frameSp f c := Function.update_self (2 : Reg) _ c.x
  let c₂ : Cpu := { c₁ with
    mem := storeSlots c₁.mem (c₁.x 2) (frameSlots.map fun s => (f.toNat - s.1, c₁.x s.2)) }
  have h9 : (Instr.opImm .add 8 2 ((f.setWidth 32).setWidth 12)).effect c₂ = c₂.set 8 (c.x 2) := by
    have hsp₂ : c₂.x 2 = frameSp f c := hsp
    dsimp only [Instr.effect, DataOp.eval]
    rw [signExtend_up h hpos, c₂.get_of_ne (by decide), hsp₂, frameSp, BitVec.sub_add_cancel]
  have hall : c₂.set 8 (c.x 2) = afterPrologue f c := by
    have hne : ∀ slot ∈ frameSlots, slot.2 ≠ 2 := by decide
    have hsaved : (frameSlots.map fun s => (f.toNat - s.1, c₁.x s.2)) =
        frameSlots.map fun s => (f.toNat - s.1, c.x s.2) :=
      List.map_congr_left fun slot hslot => by rw [hx _ (hne slot hslot)]
    show (⟨Function.update c₁.x 8 (c.x 2), c₂.mem, c.reserved⟩ : Cpu) = _
    dsimp only [c₂]
    rw [hsaved, hsp]
    rfl
  rw [prologueWords_eq, ← hall, ← h9]
  refine (Line.word hdown rfl c).append ?_
  rw [h1]
  exact (line_save h hpos (fun _ hs => hs) c₁).append (Line.word (decode_up f 8) rfl c₂)

/-- A prologue saves the registers. -/
theorem saved_afterPrologue (h : FrameSize f) (hpos : 0 < f) (c : Cpu) :
    Saved f c (afterPrologue f c) := by
  intro slot hslot
  obtain ⟨m, hm, hm4, -, hval⟩ := frame_cases h hpos
  have hbound : ∀ slot ∈ frameSlots, slot.1 ≤ 56 := by decide
  have hpair : frameSlots.Pairwise fun s t => s.1 + 8 ≤ t.1 := by decide
  have hsp : (afterPrologue f c).x 2 = frameSp f c := by
    unfold afterPrologue
    dsimp only
    rw [Function.update_of_ne (by decide), Function.update_self]
  rw [hsp]
  refine loadLe_storeSlots c.mem _ (fun s hs => ?_) ?_ (List.mem_map.2 ⟨slot, hslot, rfl⟩)
  · obtain ⟨s', -, rfl⟩ := List.mem_map.1 hs
    dsimp only
    omega
  · rw [List.pairwise_map]
    refine hpair.imp_of_mem fun {s t} hs ht hst => Or.inr ?_
    have := hbound t ht
    dsimp only
    omega

/-- **An epilogue** loads the slots, then moves the stack pointer. -/
theorem epilogue_line (h : FrameSize f) (hpos : 0 < f) (c : Cpu) :
    ∃ c', Line (epilogueWords f) c c' ∧ c'.x 2 = c.x 2 + BitVec.ofNat 64 f.toNat ∧
      (∀ slot ∈ frameSlots, c'.x slot.2 = c.load64 (addrAt (c.x 2) (f.toNat - slot.1))) ∧
      (∀ r, r ≠ 2 → (∀ slot ∈ frameSlots, slot.2 ≠ r) → c'.x r = c.x r) ∧ c'.mem = c.mem := by
  have hpair : frameSlots.reverse.Pairwise fun s t => t.2 ≠ s.2 := by decide
  obtain ⟨c₁, hline, hmem, hloads, hother⟩ :=
    line_restore h hpos (fun _ hs => List.mem_reverse.1 hs) hpair c
  have hne : ∀ slot ∈ frameSlots, slot.2 ≠ 2 := by decide
  have hsp : c₁.x 2 = c.x 2 := hother 2 fun slot hslot => hne slot (List.mem_reverse.1 hslot)
  have heffect : (Instr.opImm .add 2 2 ((f.setWidth 32).setWidth 12)).effect c₁ =
      c₁.set 2 (c.x 2 + BitVec.ofNat 64 f.toNat) := by
    dsimp only [Instr.effect, DataOp.eval]
    rw [signExtend_up h hpos, c₁.get_of_ne (by decide), hsp]
  have hlast := Line.word (decode_up f 2) rfl c₁
  rw [heffect] at hlast
  rw [epilogueWords_eq]
  refine ⟨_, hline.append hlast, c₁.set_x_self _ (by decide), fun slot hslot => ?_,
    fun r h2 hr => ?_, (c₁.set_mem _).trans hmem⟩
  · rw [c₁.set_x_of_ne _ (hne slot hslot)]
    exact hloads slot (List.mem_reverse.2 hslot)
  · rw [c₁.set_x_of_ne _ h2]
    exact hother r fun slot hslot => hr slot (List.mem_reverse.1 hslot)

end

end NVMirror.Riscv
