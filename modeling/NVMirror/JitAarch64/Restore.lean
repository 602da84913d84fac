import NVMirror.JitAarch64.Frame
import NVMirror.JitRegalloc.FrameSize

/-!
# Set-up and tear-down of a frame

* `FrameInverse f`: an epilogue undoes a prologue of the same frame size, whatever happens in
  between to registers other than the stack pointer and to memory outside the save slots.
* `frameInverse_iff`: this holds of a lowered program unless it accesses the stack below
  `R10 - 496`.  The frame then has 512 bytes, which the 7 bits of the post-indexed `LDP` read as
  -512.
-/

namespace NVMirror

open Rust Bytes

namespace Aarch64

/-- The registers a frame restores. -/
def frameRegs : List Reg := [31, 19, 20, 21, 22, 25, 29, 30]

/-- The slots of the frame at `sp` hold the same in both states. -/
def SameSlots (sp : U64) (c c' : Cpu) : Prop :=
  ∀ slot ∈ frameSlots, c'.load64 (addrAt sp slot.1) = c.load64 (addrAt sp slot.1)

/-- **The epilogue undoes the prologue**: `c₁` is the state after the prologue; from every state
`c₂` with the same stack pointer and the same save slots, the epilogue leads to a state `c₃` with
the registers of the state `c` before the prologue. -/
def FrameInverse [Profile] (frameSize : U16) : Prop :=
  ∃ ws, emitPrologue (ε := AArch64EmitError) frameSize = .ok ws ∧ ∀ c : Cpu, ∃ c₁,
    Runs ws c c₁ ∧ ∀ c₂, c₂.x 31 = c₁.x 31 → SameSlots (c₁.x 31) c₁ c₂ → ∃ c₃,
      Runs (emitEpilogue frameSize) c₂ c₃ ∧ ∀ r ∈ frameRegs, c₃.x r = c.x r

/-! ### Displacements of the stack pointer -/

/-- Down by the frame size. -/
theorem pairOffset_neg {f : U16} (h : FrameSize f) :
    pairOffset (-f) = -BitVec.ofNat 64 f.toNat := by
  have hall : ∀ m < 33, pairOffset (-BitVec.ofNat 16 (16 * m)) = -BitVec.ofNat 64 (16 * m) := by
    decide
  obtain ⟨m, hm⟩ := h.dvd
  have hle := h.le
  have hf : BitVec.ofNat 16 (16 * m) = f := by rw [← hm, BitVec.ofNat_toNat, BitVec.setWidth_eq]
  have hval := hall m (by omega)
  rwa [hf, ← hm] at hval

/-- Up by the frame size, if it fits. -/
theorem pairOffset_pos {f : U16} (h : FrameSize f) (hne : f ≠ 512) :
    pairOffset f = BitVec.ofNat 64 f.toNat := by
  have hall : ∀ m < 32, pairOffset (BitVec.ofNat 16 (16 * m)) = BitVec.ofNat 64 (16 * m) := by
    decide
  obtain ⟨m, hm⟩ := h.dvd
  have hle := h.le
  have hlt : m < 32 := by
    by_contra hge
    exact hne (BitVec.eq_of_toNat_eq (show f.toNat = 512 by omega))
  have hf : BitVec.ofNat 16 (16 * m) = f := by rw [← hm, BitVec.ofNat_toNat, BitVec.setWidth_eq]
  have hval := hall m hlt
  rwa [hf, ← hm] at hval

/-- The largest frame moves the stack pointer down twice. -/
theorem pairOffset_512 : pairOffset (-512) + pairOffset 512 = -1024 := by decide

/-! ### Round trip -/

variable [Profile] {f : U16}

omit [Profile] in
theorem afterPrologue_x_sp (c : Cpu) : (afterPrologue f c).x 31 = c.x 31 + pairOffset (-f) := by
  unfold afterPrologue
  dsimp only
  rw [Function.update_of_ne (by decide), Function.update_self]

omit [Profile] in
/-- The stack pointer and the saved registers after the epilogue. -/
theorem restore_of_slots {c c₂ : Cpu} (hsp : c₂.x 31 = (afterPrologue f c).x 31)
    (hslots : SameSlots ((afterPrologue f c).x 31) (afterPrologue f c) c₂) :
    ∃ c₃, Runs (emitEpilogue f) c₂ c₃ ∧
      c₃.x 31 = c.x 31 + (pairOffset (-f) + pairOffset f) ∧
      ∀ slot ∈ frameSlots, c₃.x slot.2 = c.x slot.2 := by
  obtain ⟨c₃, hline, hsp₃, hloads, -, -⟩ := epilogue_line f c₂
  refine ⟨c₃, hline.runs, ?_, fun slot hslot => ?_⟩
  · rw [hsp₃, hsp, afterPrologue_x_sp, BitVec.add_assoc]
  · rw [hloads slot hslot, hsp, hslots slot hslot]
    exact saved_afterPrologue f c slot hslot

/-- **The epilogue undoes the prologue unless the frame has 512 bytes.** -/
theorem frameInverse_iff_ne_512 (h : FrameSize f) : FrameInverse f ↔ f ≠ 512 := by
  have hle := h.le
  have hsmall : f.toNat < 2 ^ 15 := by omega
  obtain ⟨ws, hws, hline⟩ := prologue_line (ε := AArch64EmitError) hsmall
  constructor
  · rintro ⟨ws', hws', hinv⟩ rfl
    obtain rfl : ws = ws' := by
      rw [hws] at hws'
      exact Except.ok.inj hws'
    -- do nothing between prologue and epilogue
    let c : Cpu := ⟨fun _ => 0, ⟨false, false, false, false⟩, fun _ => 0⟩
    obtain ⟨c₁, hruns, hrest⟩ := hinv c
    obtain rfl : afterPrologue 512 c = c₁ := Runs.unique (hline c).runs hruns
    obtain ⟨c₃, hruns₃, hregs⟩ := hrest _ rfl fun slot _ => rfl
    obtain ⟨c₃', hruns', hsp, -⟩ := restore_of_slots (f := 512) (c := c) rfl fun slot _ => rfl
    obtain rfl : c₃ = c₃' := Runs.unique hruns₃ hruns'
    have hsame := hregs 31 (by decide)
    rw [hsp, pairOffset_512] at hsame
    exact absurd hsame (by decide)
  · intro hne
    refine ⟨ws, hws, fun c => ⟨_, (hline c).runs, fun c₂ hsp hslots => ?_⟩⟩
    obtain ⟨c₃, hruns, hsp₃, hsaved⟩ := restore_of_slots hsp hslots
    refine ⟨c₃, hruns, fun r hr => ?_⟩
    rcases List.mem_cons.1 hr with rfl | hr
    · rw [hsp₃, pairOffset_neg h, pairOffset_pos h hne, BitVec.add_comm (-_),
        BitVec.add_right_neg, BitVec.add_zero]
    · have hall : ∀ r ∈ frameRegs.tail, ∃ slot ∈ frameSlots, slot.2 = r := by decide
      obtain ⟨slot, hslot, rfl⟩ := hall r hr
      exact hsaved slot hslot

end Aarch64

variable {insns : List Insn}

/-- **Frames of lowered programs**: the epilogue undoes the prologue iff no access through `R10`
starts below `R10 - 496`. -/
theorem frameInverse_iff [Profile] {raw : List RawInsn} {n : ℕ} {ir : IrProgram}
    (hdec : decodeProgram raw = .ok insns) (hver : verifyProgram insns = .ok n)
    (hir : lowerToIr insns aarch64Regmap = .ok ir) :
    Aarch64.FrameInverse ir.frameSize ↔
      ∀ insn ∈ insns, ∀ off, stackOff insn = some off → -496 ≤ off.toInt := by
  have hof := lowerToIr_frameOf (accepted_of_ok hdec hver) hir
  rw [Aarch64.frameInverse_iff_ne_512 hof.toFrameSize, Ne, hof.eq_512_iff]
  constructor
  · intro hno insn hmem off ho
    by_contra hlt
    exact hno ⟨insn, hmem, off, ho, by omega⟩
  · rintro hall ⟨insn, hmem, off, ho, hlt⟩
    have := hall insn hmem off ho
    omega

/-- `*(u8 *)(r10 - 512) = 0; r0 = 0; exit`. -/
def deepStore : List RawInsn :=
  [⟨0x72, 10, -512, 0⟩, ⟨0xb7, 0, 0, 0⟩, ⟨0x95, 0, 0, 0⟩]

/-- `deepStore`, decoded. -/
def deepStoreInsns : List Insn :=
  [.storeImm .b BpfReg.r10 (-512) 0, .alu64 .mov BpfReg.r0 (.imm 0), .exit]

theorem decode_deepStore : decodeProgram deepStore = .ok deepStoreInsns := by
  decide +kernel

/-- `deepStore`, lowered. -/
def deepStoreIr : IrProgram where
  blocks := [⟨⟨0⟩, [.prologue 512, .storeImm .b ⟨25⟩ (-512) 0, .alu64 .mov ⟨7⟩ (.imm 0),
    .epilogue 512, .ret]⟩]
  frameSize := 512

theorem lower_deepStore : @lowerToIr debug deepStoreInsns aarch64Regmap = .ok deepStoreIr := by
  decide +kernel

/-- `frameInverse_iff` at `deepStore`. -/
theorem frameInverse_iff_deepStore : ¬ @Aarch64.FrameInverse debug 512 := by
  have hver : verifyProgram deepStoreInsns = .ok 1 := rfl
  have h := @frameInverse_iff _ debug _ _ _ decode_deepStore hver lower_deepStore
  have hdeep : ¬ ∀ insn ∈ deepStoreInsns, ∀ off, stackOff insn = some off → -496 ≤ off.toInt :=
    fun hall => absurd (hall _ List.mem_cons_self (-512) rfl) (by decide)
  exact fun hinv => hdeep (h.1 hinv)

/-- **An accepted program loses the stack pointer**: its frame has 512 bytes. -/
theorem deepStore_loses_sp :
    decodeProgram deepStore = .ok deepStoreInsns ∧ verifyProgram deepStoreInsns = .ok 1 ∧
      @lowerToIr debug deepStoreInsns aarch64Regmap = .ok deepStoreIr ∧
      0 < deepStoreIr.frameSize ∧ ¬ @Aarch64.FrameInverse debug deepStoreIr.frameSize := by
  have hsize : FrameSize 512 := ⟨by decide, by decide, fun _ => by decide⟩
  have hiff := @Aarch64.frameInverse_iff_ne_512 debug _ hsize
  exact ⟨decode_deepStore, rfl, lower_deepStore, by decide, fun hinv => hiff.1 hinv rfl⟩

end NVMirror
