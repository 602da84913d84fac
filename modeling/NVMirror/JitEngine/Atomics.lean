import NVMirror.EbpfCore.Isa
import NVMirror.Library.Bytes

/-!
# Atomic operations

What an `Atomic` instruction has to do, apart from the machines.

* `atomicNew`: what it leaves in its cell.  `atomicDst`: the register that gets the old value.
* `AtomicDone`: the whole effect on registers and memory.
* `atomicDone_store_iff`: when a store of 64 bits at the address of the cell has this effect.
-/

namespace NVMirror

open Rust Bytes

/-- What the operation leaves in a cell that held `old`. -/
def atomicNew (op : AtomicOp) (old src r0 : U64) : U64 :=
  match op with
  | .add | .fetchAdd => old + src
  | .or | .fetchOr => old ||| src
  | .and | .fetchAnd => old &&& src
  | .xor | .fetchXor => old ^^^ src
  | .xchg => src
  | .cmpXchg => if old = r0 then src else old

/-- The register that gets the old value. -/
def atomicDst (op : AtomicOp) (src : BpfReg) : Option BpfReg :=
  match op with
  | .add | .or | .and | .xor => none
  | .cmpXchg => some BpfReg.r0
  | .xchg | .fetchAdd | .fetchOr | .fetchAnd | .fetchXor => some src

/-- **The operation is done**: the cell of `width` bytes at `address` holds its result, the old
value is in its register, and nothing else has changed. -/
structure AtomicDone (width : MemWidth) (op : AtomicOp) (src : BpfReg) (address : U64)
    (regs regs' : BpfReg → U64) (mem mem' : U64 → U8) : Prop where
  memory : mem' = storeLe width.byteLen mem address
    (atomicNew op (loadLe 64 width.byteLen mem address) (regs src) (regs BpfReg.r0))
  registers : ∀ r, regs' r =
    if atomicDst op src = some r then loadLe 64 width.byteLen mem address else regs r

/-! ### Stores of 64 bits -/

/-- The two values agree on the cell. -/
def SameCell (width : MemWidth) (u v : U64) : Prop :=
  ∀ i < width.byteLen, byteAt u i = byteAt v i

/-- The two values agree on the bytes above the cell. -/
def SameAbove (width : MemWidth) (u v : U64) : Prop :=
  ∀ i, width.byteLen ≤ i → i < 8 → byteAt u i = byteAt v i

/-- The cell is the lower part of a word of 64 bits. -/
theorem sameCell_loadLe (width : MemWidth) (mem : U64 → U8) (a : U64) :
    SameCell width (loadLe 64 width.byteLen mem a) (loadLe 64 8 mem a) := by
  intro i hi
  have hlen := width.byteLen_le
  rw [byteAt_loadLe mem a hi (by omega), byteAt_loadLe mem a (by omega) (by omega)]

/-- Agreement on the cell, as an equation. -/
theorem sameCell_iff (width : MemWidth) (u v : U64) :
    SameCell width u v ↔ u.setWidth (8 * width.byteLen) = v.setWidth (8 * width.byteLen) := by
  have hlen := width.byteLen_le
  rw [eq_iff_byteAt (n := width.byteLen) le_rfl]
  refine forall₂_congr fun i hi => ?_
  rw [byteAt_setWidth u (by omega), byteAt_setWidth v (by omega)]

/-- A cell of zeros. -/
theorem loadLe_eq_zero_iff (width : MemWidth) (mem : U64 → U8) (a : U64) :
    loadLe 64 width.byteLen mem a = 0 ↔ SameCell width (loadLe 64 width.byteLen mem a) 0 := by
  have hzero : ∀ i, byteAt (0 : U64) i = 0 := by
    intro i
    simp [byteAt]
  rw [eq_iff_byteAt (n := 8) (by decide)]
  constructor
  · intro h i hi
    exact h i (hi.trans_le width.byteLen_le)
  · intro h i hi
    rcases lt_or_ge i width.byteLen with hlt | hge
    · exact h i hlt
    · rw [byteAt_loadLe_of_le mem a hge (by omega), hzero]

/-- On the cell, the result depends on the cell only. -/
theorem sameCell_atomicNew {width : MemWidth} {op : AtomicOp} (hop : op ≠ .cmpXchg) {u v : U64}
    (h : SameCell width u v) (src r0 : U64) :
    SameCell width (atomicNew op u src r0) (atomicNew op v src r0) := by
  have hlen : 8 * width.byteLen ≤ 64 := by
    have := width.byteLen_le
    omega
  rw [sameCell_iff] at h ⊢
  cases op with
  | add | fetchAdd => simp only [atomicNew, BitVec.setWidth_add _ _ hlen, h]
  | or | fetchOr => simp only [atomicNew, BitVec.setWidth_or, h]
  | and | fetchAnd => simp only [atomicNew, BitVec.setWidth_and, h]
  | xor | fetchXor => simp only [atomicNew, BitVec.setWidth_xor, h]
  | xchg => rfl
  | cmpXchg => exact absurd rfl hop

section

variable {width : MemWidth} {op : AtomicOp} {src : BpfReg} {address : U64}
  {regs regs' : BpfReg → U64} {mem : U64 → U8}

/-- **A store of 64 bits.** -/
theorem atomicDone_store_iff (new : U64) :
    AtomicDone width op src address regs regs' mem (storeLe 8 mem address new) ↔
      SameCell width new
        (atomicNew op (loadLe 64 width.byteLen mem address) (regs src) (regs BpfReg.r0)) ∧
      SameAbove width new (loadLe 64 8 mem address) ∧
      ∀ r, regs' r =
        if atomicDst op src = some r then loadLe 64 width.byteLen mem address else regs r := by
  have hstore := storeLe_eq_storeLe_iff mem address new
    (atomicNew op (loadLe 64 width.byteLen mem address) (regs src) (regs BpfReg.r0))
    width.byteLen_le (by decide)
  have habove : SameAbove width new (loadLe 64 8 mem address) ↔
      ∀ i, width.byteLen ≤ i → i < 8 → byteAt new i = mem (addrAt address i) := by
    refine forall₃_congr fun i _ hi => ?_
    rw [byteAt_loadLe mem address hi (by omega)]
  rw [habove, ← and_assoc]
  constructor
  · intro h
    exact ⟨hstore.1 h.memory, h.registers⟩
  · rintro ⟨hmem, hregs⟩
    exact ⟨hstore.2 hmem, hregs⟩

/-- No store. -/
theorem atomicDone_self_iff :
    AtomicDone width op src address regs regs' mem mem ↔
      SameCell width (loadLe 64 8 mem address)
        (atomicNew op (loadLe 64 width.byteLen mem address) (regs src) (regs BpfReg.r0)) ∧
      ∀ r, regs' r =
        if atomicDst op src = some r then loadLe 64 width.byteLen mem address else regs r := by
  have hself : storeLe 8 mem address (loadLe 64 8 mem address) = mem :=
    (storeLe_eq_self_iff mem address _ (by decide)).2 fun i hi =>
      byteAt_loadLe mem address hi (by omega)
  have hiff := @atomicDone_store_iff width op src address regs regs' mem (loadLe 64 8 mem address)
  rw [hself] at hiff
  rw [hiff]
  exact and_congr_right fun _ => and_iff_right fun i _ _ => rfl

end

/-- The register for the old value holds it already. -/
def HoldsOld (op : AtomicOp) (src : BpfReg) (regs : BpfReg → U64) (old : U64) : Prop :=
  ∀ r, atomicDst op src = some r → regs r = old

/-- Registers that do not change. -/
theorem holdsOld_iff (op : AtomicOp) (src : BpfReg) (regs : BpfReg → U64) (old : U64) :
    (∀ r, regs r = if atomicDst op src = some r then old else regs r) ↔
      HoldsOld op src regs old := by
  refine forall_congr' fun r => ?_
  by_cases h : atomicDst op src = some r
  · rw [if_pos h]
    exact ⟨fun heq _ => heq, fun himp => himp h⟩
  · rw [if_neg h]
    exact ⟨fun _ hdst => absurd hdst h, fun _ => rfl⟩

/-- **Compare-and-exchange by a store of 64 bits**, where no register changes. -/
theorem atomicDone_cmpXchg_iff (width : MemWidth) (src : BpfReg) (address : U64)
    (regs : BpfReg → U64) (mem : U64 → U8) :
    AtomicDone width .cmpXchg src address regs regs mem (storeLe 8 mem address (regs src)) ↔
      HoldsOld .cmpXchg src regs (loadLe 64 width.byteLen mem address) ∧
      SameAbove width (regs src) (loadLe 64 8 mem address) := by
  rw [atomicDone_store_iff, holdsOld_iff]
  constructor
  · rintro ⟨-, habove, hold⟩
    exact ⟨hold, habove⟩
  · rintro ⟨hold, habove⟩
    have hr0 : regs BpfReg.r0 = loadLe 64 width.byteLen mem address := hold BpfReg.r0 rfl
    refine ⟨fun i _ => ?_, habove, hold⟩
    rw [atomicNew, if_pos hr0.symm]

/-- Without a store. -/
theorem atomicDone_cmpXchg_self_iff (width : MemWidth) (src : BpfReg) (address : U64)
    (regs : BpfReg → U64) (mem : U64 → U8) :
    AtomicDone width .cmpXchg src address regs regs mem mem ↔
      HoldsOld .cmpXchg src regs (loadLe 64 width.byteLen mem address) ∧
      SameCell width (regs src) (loadLe 64 8 mem address) := by
  rw [atomicDone_self_iff, holdsOld_iff, and_comm]
  refine and_congr_right fun hold => ?_
  have hr0 : regs BpfReg.r0 = loadLe 64 width.byteLen mem address := hold BpfReg.r0 rfl
  rw [atomicNew, if_pos hr0.symm]
  exact ⟨fun h i hi => (h i hi).symm, fun h i hi => (h i hi).symm⟩

end NVMirror
