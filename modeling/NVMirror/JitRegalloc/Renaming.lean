import NVMirror.EbpfCore.Slots
import NVMirror.JitRegalloc.Lower

/-!
# Lowering does not look at physical registers

The register mapping decides only which physical registers the nodes name: two mappings that
differ by a renaming `f` of physical registers give the same program up to `f`.

* `lowerStep_rename`: one instruction.
* `lowerToIr_map`: the program, panics included.
* `lowerToIr_rename`: the same, with what the two targets have in common.
-/

namespace NVMirror

open Rust

/-! ### Renaming -/

section Rename

variable (f : PhysReg → PhysReg)

def Operand.rename : Operand → Operand
  | .reg r => .reg (f r)
  | .imm v => .imm v

def BranchCond.rename (cond : BranchCond) : BranchCond :=
  { cond with lhs := f cond.lhs, rhs := cond.rhs.rename f }

/-- Apply `f` to every register of a node. -/
def IrNode.rename : IrNode → IrNode
  | .alu64 op dst src => .alu64 op (f dst) (src.rename f)
  | .alu32 op dst src => .alu32 op (f dst) (src.rename f)
  | .load width dst base off => .load width (f dst) (f base) off
  | .store width base src off => .store width (f base) (f src) off
  | .storeImm width base off imm => .storeImm width (f base) off imm
  | .loadImm64 dst imm => .loadImm64 (f dst) imm
  | .branch cond target => .branch (cond.rename f) target
  | .jump target => .jump target
  | .call funcId => .call funcId
  | .ret => .ret
  | .spill reg slot => .spill (f reg) slot
  | .fill reg slot => .fill (f reg) slot
  | .atomic width op base src off => .atomic width op (f base) (f src) off
  | .endian toBe width dst => .endian toBe width (f dst)
  | .label bb => .label bb
  | .prologue frameSize => .prologue frameSize
  | .epilogue frameSize => .epilogue frameSize

def IrBasicBlock.rename (b : IrBasicBlock) : IrBasicBlock :=
  { b with nodes := b.nodes.map (IrNode.rename f) }

def IrProgram.rename (ir : IrProgram) : IrProgram :=
  { ir with blocks := ir.blocks.map (IrBasicBlock.rename f) }

def LowerState.rename (st : LowerState) : LowerState where
  blocks := st.blocks.map (IrBasicBlock.rename f)
  currentNodes := st.currentNodes.map (IrNode.rename f)
  bbId := st.bbId

end Rename

/-- What does not depend on registers: the frame size, the ids of the blocks and the targets of
their branches, node by node. -/
def IrProgram.shape (ir : IrProgram) : U16 × List (BasicBlockId × List (Option BasicBlockId)) :=
  (ir.frameSize, ir.blocks.map fun b => (b.id, b.nodes.map IrNode.target))

theorem IrNode.target_rename (f : PhysReg → PhysReg) (node : IrNode) :
    (node.rename f).target = node.target := by
  cases node <;> rfl

theorem IrProgram.shape_rename (f : PhysReg → PhysReg) (ir : IrProgram) :
    (ir.rename f).shape = ir.shape := by
  have hnodes : IrNode.target ∘ IrNode.rename f = IrNode.target :=
    funext fun node => node.target_rename f
  simp only [IrProgram.shape, IrProgram.rename, List.map_map, Prod.mk.injEq, true_and]
  apply List.map_congr_left
  intro b _
  simp only [Function.comp_apply, IrBasicBlock.rename, List.map_map, hnodes]

/-! ### Lowering -/

section Lowering

variable {m₁ m₂ : RegMap} {f : PhysReg → PhysReg}

theorem translateSource_rename (hf : ∀ r, f (m₁.phys r) = m₂.phys r) (src : Source) :
    m₂.translateSource src = (m₁.translateSource src).rename f := by
  cases src with
  | imm v => rfl
  | reg r => exact congrArg Operand.reg (hf r).symm

/-- The nodes of one instruction. -/
theorem lowerInsn_rename (hf : ∀ r, f (m₁.phys r) = m₂.phys r) (pcToBb : List BasicBlockId)
    (frameSize : U16) (pc : ℕ) (insn : Insn) :
    lowerInsn m₂ pcToBb frameSize pc insn =
      (lowerInsn m₁ pcToBb frameSize pc insn).map (List.map (IrNode.rename f)) := by
  cases insn
  all_goals simp only [lowerInsn, map_bind, ← hf, translateSource_rename hf]
  case exit =>
    split_ifs <;> rfl
  all_goals rfl

theorem flush_rename (st : LowerState) :
    (st.rename f).flush = st.flush.map (IrBasicBlock.rename f) := by
  simp only [LowerState.flush, LowerState.rename, List.map_append]
  rfl

variable [Profile]

theorem startBlock_rename (isLeader : List Bool) (frameSize : U16) (st : LowerState) (pc : ℕ) :
    startBlock isLeader frameSize (st.rename f) pc =
      (startBlock isLeader frameSize st pc).map (LowerState.rename f) := by
  have hnil : (st.rename f).currentNodes ≠ [] ↔ st.currentNodes ≠ [] := by
    simp [LowerState.rename]
  unfold startBlock
  rw [map_bind]
  congr 1
  funext leader
  simp only [hnil]
  by_cases hstart : leader ∧ (st.currentNodes ≠ [] ∨ pc = 0)
  · rw [if_pos hstart, if_pos hstart]
    by_cases hnodes : st.currentNodes ≠ []
    · -- the current block is pushed
      rw [if_pos hnodes, if_pos hnodes, map_bind]
      congr 1
      funext bbId
      rw [flush_rename]
      split_ifs <;> rfl
    · rw [if_neg hnodes, if_neg hnodes]
      simp only [pure_eq, ok_bind]
      split_ifs
      · simp [Except.map, LowerState.rename, IrNode.rename]
      · rfl
  · rw [if_neg hstart, if_neg hstart]
    rfl

/-- One instruction. -/
theorem lowerStep_rename (hf : ∀ r, f (m₁.phys r) = m₂.phys r) (isLeader : List Bool)
    (pcToBb : List BasicBlockId) (frameSize : U16) (st : LowerState) (x : Insn × ℕ) :
    lowerStep m₂ isLeader pcToBb frameSize (st.rename f) x =
      (lowerStep m₁ isLeader pcToBb frameSize st x).map (LowerState.rename f) := by
  obtain ⟨insn, pc⟩ := x
  unfold lowerStep
  dsimp only
  rw [startBlock_rename, bind_map, map_bind]
  congr 1
  funext st'
  rw [lowerInsn_rename hf, bind_map, map_bind]
  congr 1
  funext nodes
  simp only [pure_eq, Except.map, LowerState.rename, List.map_append]

/-- The program. -/
theorem lowerToIr_map (hf : ∀ r, f (m₁.phys r) = m₂.phys r) (insns : List Insn) :
    lowerToIr insns m₂ = (lowerToIr insns m₁).map (IrProgram.rename f) := by
  unfold lowerToIr
  simp only [map_bind]
  congr 1
  funext isLeader
  congr 1
  funext pcToBb
  congr 1
  funext frameSize
  have hloop := foldlM_map (lowerStep_rename hf isLeader pcToBb frameSize) insns.zipIdx ⟨[], [], 0⟩
  have hinit : LowerState.rename f ⟨[], [], 0⟩ = ⟨[], [], 0⟩ := rfl
  rw [hinit] at hloop
  rw [hloop, bind_map]
  congr 1
  funext st
  have hnil : (st.rename f).currentNodes ≠ [] ↔ st.currentNodes ≠ [] := by
    simp [LowerState.rename]
  simp only [hnil, flush_rename]
  split_ifs <;> rfl

/-- A mapping that gives each register its own number: every other one is a renaming of it. -/
def numberedRegMap : RegMap := regMapOf (fun r => BitVec.ofNat 8 r.val) 0 0 0

/-- The register of `m` that belongs to a register of `numberedRegMap`. -/
def fromNumbered (m : RegMap) (p : PhysReg) : PhysReg :=
  if h : p.num.toNat < numRegs then m.phys ⟨p.num.toNat, h⟩ else p

omit [Profile] in
theorem fromNumbered_phys (m : RegMap) (r : BpfReg) :
    fromNumbered m (numberedRegMap.phys r) = m.phys r := by
  have hval : (BitVec.ofNat 8 r.val).toNat = r.val := by
    rw [BitVec.toNat_ofNat]
    have := r.isLt
    unfold numRegs at this
    omega
  have hlt : (numberedRegMap.phys r).num.toNat < numRegs := by
    change (BitVec.ofNat 8 r.val).toNat < numRegs
    rw [hval]
    exact r.isLt
  unfold fromNumbered
  rw [dif_pos hlt]
  exact congrArg m.phys (Fin.ext hval)

/-- Any two mappings give programs of one shape. -/
theorem lowerToIr_shape (insns : List Insn) (m m' : RegMap) :
    (lowerToIr insns m).map IrProgram.shape = (lowerToIr insns m').map IrProgram.shape := by
  have hmap : ∀ m : RegMap, (lowerToIr insns m).map IrProgram.shape =
      (lowerToIr insns numberedRegMap).map IrProgram.shape := fun m => by
    rw [lowerToIr_map (fromNumbered_phys m) insns]
    cases lowerToIr insns numberedRegMap with
    | error e => rfl
    | ok ir => exact congrArg Except.ok (ir.shape_rename _)
  rw [hmap m, hmap m']

/-- **Lowering commutes with renaming.**  If `f` takes the registers of `m₁` to those of `m₂`, the
program for `m₂` is the one for `m₁` with `f` applied to every register of every node; blocks, ids,
branch targets and frame size are the same.  They are also the same for the two targets. -/
theorem lowerToIr_rename (hf : ∀ r, f (m₁.phys r) = m₂.phys r) {insns : List Insn}
    {ir : IrProgram} (h : lowerToIr insns m₁ = .ok ir) :
    lowerToIr insns m₂ = .ok (ir.rename f) ∧ (ir.rename f).shape = ir.shape ∧
      (lowerToIr insns aarch64Regmap).map IrProgram.shape = .ok ir.shape ∧
      (lowerToIr insns riscv64Regmap).map IrProgram.shape = .ok ir.shape := by
  have hm : lowerToIr insns m₂ = .ok (ir.rename f) := by
    rw [lowerToIr_map hf, h]
    rfl
  have hshape : ∀ m, (lowerToIr insns m).map IrProgram.shape = .ok ir.shape := fun m => by
    rw [lowerToIr_shape insns m m₁, h]
    rfl
  exact ⟨hm, ir.shape_rename f, hshape _, hshape _⟩

end Lowering

/-- The program `jumpOverLddw`, lowered for registers `p0` and `p1`. -/
def jumpOverLddwIr (p0 p1 : PhysReg) : IrProgram where
  blocks := [⟨⟨0⟩, [.alu64 .mov p0 (.imm 0), .branch ⟨.jeq, p0, .imm 0, false⟩ ⟨2⟩]⟩,
    ⟨⟨1⟩, [.loadImm64 p1 7, .alu64 .mov p0 (.imm 1)]⟩, ⟨⟨2⟩, [.ret]⟩]
  frameSize := 0

/-- `lowerToIr_rename` at the program `jumpOverLddw`, from the numbered registers to those of
RISC-V. -/
theorem lowerToIr_rename_jumpOverLddw :
    @lowerToIr debug jumpOverLddwInsns riscv64Regmap = .ok (jumpOverLddwIr ⟨10⟩ ⟨11⟩) ∧
      (@lowerToIr debug jumpOverLddwInsns aarch64Regmap).map IrProgram.shape =
        .ok (jumpOverLddwIr ⟨10⟩ ⟨11⟩).shape := by
  have h : @lowerToIr debug jumpOverLddwInsns numberedRegMap = .ok (jumpOverLddwIr ⟨0⟩ ⟨1⟩) := by
    have hnumbered : (@lowerToIr debug jumpOverLddwInsns numberedRegMap).toOption =
        some (jumpOverLddwIr ⟨0⟩ ⟨1⟩) := by
      decide +kernel
    exact ok_of_toOption hnumbered
  obtain ⟨hriscv, hshape, haarch64, -⟩ :=
    @lowerToIr_rename _ _ _ debug (fromNumbered_phys riscv64Regmap) _ _ h
  exact ⟨hriscv, haarch64.trans (congrArg Except.ok hshape.symm)⟩

end NVMirror
