import NVMirror.JitEngine.Arithmetic
import NVMirror.JitEngine.StackBuffer
import NVMirror.JitEngine.Totality
import NVMirror.JitRegalloc.FrameSize
import NVMirror.Library.Regions

/-!
# The stack of the interpreter in the memory of a machine

* `InBuffer`: an access that lies inside the stack buffer.
* `loadLe_eq_stackValue`, `bytesAt_stackWritten`: where the buffer holds the stack, such an access
  reads and writes what the one of the interpreter does.
* `StackIn`: memory while a program runs.  It differs from the memory before only in the buffer and
  in the frame.
* `stepInsn_write`, `stepInsn_store`: the instructions by what they do to registers and stack.
* `FrameOf.index_lt`: without a frame there are no results in `R6..R9`.
-/

namespace NVMirror

open Rust Bytes

/-! ### Accesses -/

/-- The index of an address in the stack buffer. -/
def bufferIndex (stackPtr base : U64) (off : I16) : ℕ :=
  (base + off.signExtend 64 - stackPtr).toNat

/-- The access lies inside the stack buffer. -/
def InBuffer (stackPtr base : U64) (off : I16) (width : MemWidth) : Prop :=
  bufferIndex stackPtr base off + width.byteLen ≤ stackSize

instance (stackPtr base : U64) (off : I16) (width : MemWidth) :
    Decidable (InBuffer stackPtr base off width) :=
  inferInstanceAs (Decidable (_ ≤ _))

/-- Without overflow checks such an access does not panic. -/
theorem InBuffer.accessInRange {stackPtr base : U64} {off : I16} {width : MemWidth}
    (h : InBuffer stackPtr base off width) : @AccessInRange release stackPtr base off width :=
  @AccessInRange.mk release _ _ _ _ (fun hchecks => absurd hchecks Bool.false_ne_true)
    (lt_of_le_of_lt h (by decide))

section

variable {stackPtr a : U64} {mem : U64 → U8} {stack : Fin stackSize → U8} {width : MemWidth}

/-- **A load from the buffer.** -/
theorem loadLe_eq_stackValue (h : BytesAt mem stackPtr stack)
    (hin : (a - stackPtr).toNat + width.byteLen ≤ stackSize) :
    (loadLe (8 * width.byteLen) width.byteLen mem a).setWidth 64 =
      stackValue stack (a - stackPtr).toNat width := by
  have hle := width.byteLen_le
  have hbytes : ((List.range width.byteLen).map fun i => mem (addrAt a i)) =
      (List.range width.byteLen).map fun i => stackByte stack ((a - stackPtr).toNat + i) := by
    refine List.map_congr_left fun i hi => ?_
    have hi := List.mem_range.1 hi
    have hregion : InRegion stackPtr stackSize (addrAt a i) :=
      InRegion.of_sub hin ((inRegion_addrAt (by omega)).2 hi)
    have hindex : (addrAt a i - stackPtr).toNat = (a - stackPtr).toNat + i := by
      have hlt := a.isLt
      have hsum : addrAt a i - stackPtr = (a - stackPtr) + BitVec.ofNat 64 i := by
        rw [addrAt, BitVec.sub_eq_add_neg, BitVec.sub_eq_add_neg, BitVec.add_assoc,
          BitVec.add_assoc, BitVec.add_comm (BitVec.ofNat 64 i)]
      rw [hsum, BitVec.toNat_add, BitVec.toNat_ofNat]
      unfold stackSize at hin
      omega
    rw [h.get hregion, stackByte, dif_pos (by omega)]
    congr 1
    exact Fin.ext hindex
  refine (eq_iff_byteAt (n := 8) (by decide)).2 fun i hi => ?_
  rw [stackValue, if_pos hin, ← hbytes, byteAt_setWidth _ (by omega), byteAt_ofLeBytes _ (by omega)]
  rw [List.getElem?_map]
  by_cases hlt : i < width.byteLen
  · rw [byteAt_loadLe mem a hlt (by omega), List.getElem?_range hlt]
    rfl
  · rw [byteAt_of_le _ (by omega), List.getElem?_eq_none (by rw [List.length_range]; omega)]
    rfl

/-- **A store to the buffer.** -/
theorem bytesAt_stackWritten (h : BytesAt mem stackPtr stack)
    (hin : (a - stackPtr).toNat + width.byteLen ≤ stackSize) (val : U64) :
    BytesAt (storeLe width.byteLen mem a val) stackPtr
      (stackWritten stack (a - stackPtr).toNat width val) := by
  have hstore := h.storeLe (by decide) hin val
  rwa [stackWritten, if_pos hin]

end

/-! ### Memory while a program runs -/

/-- The buffer holds the stack; outside of the buffer and of the `len` bytes of the frame memory is
as before. -/
structure StackIn (stackPtr : U64) (stack : Fin stackSize → U8) (frame : U64) (len : ℕ)
    (mem₀ mem : U64 → U8) : Prop where
  buffer : BytesAt mem stackPtr stack
  rest : ∀ x, ¬ InRegion stackPtr stackSize x → ¬ InRegion frame len x → mem x = mem₀ x

namespace StackIn

variable {stackPtr frame : U64} {stack : Fin stackSize → U8} {len : ℕ} {mem₀ mem : U64 → U8}

/-- At the start. -/
theorem start (h : BytesAt mem₀ stackPtr stack) (frame : U64) (len : ℕ) :
    StackIn stackPtr stack frame len mem₀ mem₀ :=
  ⟨h, fun _ _ _ => rfl⟩

/-- An access to the buffer. -/
theorem store (h : StackIn stackPtr stack frame len mem₀ mem) {base : U64} {off : I16}
    {width : MemWidth} (hin : InBuffer stackPtr base off width) (val : U64) :
    StackIn stackPtr (stackWritten stack (bufferIndex stackPtr base off) width val) frame len mem₀
      (storeLe width.byteLen mem (base + off.signExtend 64) val) where
  buffer := bytesAt_stackWritten h.buffer hin val
  rest x hx hx' := by
    rw [storeLe_of_notInRegion _ fun hin' => hx (hin'.of_sub hin)]
    exact h.rest x hx hx'

/-- Slots of the frame are written outside of the buffer. -/
theorem storeSlots (h : StackIn stackPtr stack frame len mem₀ mem)
    (hapart : Apart stackPtr stackSize frame len) {slots : List (ℕ × U64)}
    (hslots : ∀ slot ∈ slots, slot.1 + 8 ≤ len) (hlen : len ≤ 2 ^ 64) :
    StackIn stackPtr stack frame len mem₀ (Bytes.storeSlots mem frame slots) where
  buffer := h.buffer.of_eq (by decide) fun x hx =>
    storeSlots_of_notInRegion hslots hlen (hapart x hx)
  rest x hx hx' := by
    rw [storeSlots_of_notInRegion hslots hlen hx']
    exact h.rest x hx hx'

/-- An access to the buffer leaves a slot of the frame. -/
theorem loadLe_store (hapart : Apart stackPtr stackSize frame len) {base : U64} {off : I16}
    {width : MemWidth} (hin : InBuffer stackPtr base off width) (val : U64) {slot : ℕ}
    (hslot : slot + 8 ≤ len) (hlen : len ≤ 2 ^ 64) :
    loadLe 64 8 (storeLe width.byteLen mem (base + off.signExtend 64) val) (addrAt frame slot) =
      loadLe 64 8 mem (addrAt frame slot) := by
  refine loadLe_congr (by decide) fun x hx => ?_
  refine storeLe_of_notInRegion _ fun hin' => ?_
  refine hapart x (hin'.of_sub hin) (hx.of_sub ?_)
  rw [sub_addrAt frame (by omega)]
  exact hslot

end StackIn

/-! ### Instructions of the interpreter -/

section

variable {stackPtr : U64} {s s' : InterpreterState}

/-- The value an instruction leaves in its register, where negation wraps. -/
def Insn.result (stackPtr : U64) (s : InterpreterState) : Insn → Option (BpfReg × U64)
  | .alu64 op dst src => some (dst, aluResult op (s.regs dst) (resolveSource s.regs src))
  | .alu32 op dst src => some (dst, (aluResult op ((s.regs dst).setWidth 32)
      ((resolveSource s.regs src).setWidth 32)).setWidth 64)
  | .loadImm64 dst imm => some (dst, imm)
  | .load width dst src off =>
    some (dst, stackValue s.stack (bufferIndex stackPtr (s.regs src) off) width)
  | .endian toBe width dst => some (dst, evalEndian toBe width (s.regs dst))
  | _ => none

/-- **An instruction with a result.** -/
theorem stepInsn_write {insn : Insn} {d : BpfReg} {v : U64}
    (hres : insn.result stackPtr s = some (d, v))
    (hstep : @stepInsn release stackPtr s insn = .ok (s', true)) :
    s'.regs = Function.update s.regs d v ∧ s'.stack = s.stack := by
  cases insn with
  | alu64 op dst src =>
    cases hres
    dsimp only [stepInsn] at hstep
    rw [evalAlu64_eq, ok_bind] at hstep
    obtain ⟨rfl, -⟩ := advance_eq_ok hstep
    exact ⟨rfl, rfl⟩
  | alu32 op dst src =>
    cases hres
    dsimp only [stepInsn] at hstep
    rw [evalAlu32_eq, ok_bind] at hstep
    obtain ⟨rfl, -⟩ := advance_eq_ok hstep
    exact ⟨rfl, rfl⟩
  | loadImm64 dst imm | endian toBe width dst =>
    cases hres
    obtain ⟨rfl, -⟩ := advance_eq_ok hstep
    exact ⟨rfl, rfl⟩
  | load width dst src off =>
    cases hres
    obtain ⟨rel, hrel, hstep⟩ := bind_eq_ok.1 hstep
    obtain ⟨val, hval, hstep⟩ := bind_eq_ok.1 hstep
    obtain ⟨-, rfl⟩ := (@stackRel_eq_ok release _ _ _ _).1 hrel
    obtain ⟨-, rfl⟩ := (@readStack_eq_ok release _ _ _ _).1 hval
    obtain ⟨rfl, -⟩ := advance_eq_ok hstep
    exact ⟨rfl, rfl⟩
  | _ => cases hres

/-- The access of a store, and what it stores. -/
def Insn.stored (s : InterpreterState) : Insn → Option (MemWidth × U64 × I16 × U64)
  | .storeReg width dst src off => some (width, s.regs dst, off, s.regs src)
  | .storeImm width dst off imm => some (width, s.regs dst, off, imm.signExtend 64)
  | _ => none

/-- **A store.** -/
theorem stepInsn_store {insn : Insn} {width : MemWidth} {base val : U64} {off : I16}
    (hstored : insn.stored s = some (width, base, off, val))
    (hstep : @stepInsn release stackPtr s insn = .ok (s', true)) :
    s'.regs = s.regs ∧
      s'.stack = stackWritten s.stack (bufferIndex stackPtr base off) width val := by
  cases insn with
  | storeReg width dst src off | storeImm width dst off imm =>
    cases hstored
    obtain ⟨rel, hrel, hstep⟩ := bind_eq_ok.1 hstep
    obtain ⟨stack, hwrite, hstep⟩ := bind_eq_ok.1 hstep
    obtain ⟨-, rfl⟩ := (@stackRel_eq_ok release _ _ _ _).1 hrel
    obtain ⟨-, rfl⟩ := (@writeStack_eq_ok release _ _ _ _ _).1 hwrite
    obtain ⟨rfl, -⟩ := advance_eq_ok hstep
    exact ⟨rfl, rfl⟩
  | _ => cases hstored

end

/-! ### Results and frames -/

section

variable {insn : Insn} {stackPtr : U64} {s : InterpreterState} {d : BpfReg} {v : U64}

theorem Insn.mem_writes_of_result (h : insn.result stackPtr s = some (d, v)) : d ∈ insn.writes := by
  cases insn with
  | alu64 | alu32 | loadImm64 | load | endian => cases h; rfl
  | _ => cases h

/-- A result in `R6..R9` needs a frame. -/
theorem Insn.needsFrame_of_result (h : insn.result stackPtr s = some (d, v))
    (h69 : 6 ≤ d.index ∧ d.index ≤ 9) : needsFrame insn = true := by
  cases insn with
  | alu64 | alu32 | loadImm64 | load | endian => cases h; simp [needsFrame, h69.1, h69.2]
  | _ => cases h

/-- In a program without a frame results are in `R0..R5`. -/
theorem FrameOf.index_lt {insns : List Insn} {f : U16} (hof : FrameOf insns f)
    (hacc : Accepted insns) {pc : ℕ} (hget : insns[pc]? = some insn)
    (h : insn.result stackPtr s = some (d, v)) (hf : ¬ 0 < f) : d.index < 6 := by
  have hmem := List.mem_of_getElem? hget
  have hzero : f = 0 := BitVec.eq_of_toNat_eq (Nat.le_zero.1 (BitVec.not_lt.1 hf))
  have hno := (hof.eq_zero_iff.1 hzero insn hmem).2
  have h10 : d ≠ BpfReg.r10 := by
    rintro rfl
    exact hacc.not_writes hget (Insn.mem_writes_of_result h)
  by_contra hge
  have hall : ∀ d : BpfReg, d ≠ BpfReg.r10 → ¬ d.index < 6 → 6 ≤ d.index ∧ d.index ≤ 9 := by
    decide
  rw [Insn.needsFrame_of_result h (hall d h10 hge)] at hno
  cases hno

end

end NVMirror
