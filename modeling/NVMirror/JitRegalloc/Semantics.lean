import NVMirror.JitEngine.Interpreter
import NVMirror.JitRegalloc.Lower

/-!
# The meaning of lowered programs

A lowered program runs its blocks in list order, so its code is the list of all nodes and falling
through to the next block is going to the next node.  A branch goes to the first node of the
block that carries the target id.  A node does to physical registers what the interpreter does to
eBPF registers for the instruction it comes from.  `ret` is where a run stops.

What the prologue and the epilogue do besides leaving the mapped registers alone is a parameter
(`IrContext`).
-/

namespace NVMirror

open Rust

/-- Position of the first node of the block with the given id. -/
def IrProgram.entry (ir : IrProgram) (target : BasicBlockId) : Option ℕ :=
  (ir.blocks.findIdx? fun b => b.id = target).map fun i =>
    ((ir.blocks.take i).flatMap IrBasicBlock.nodes).length

/-- The entry of a block with an id of its own. -/
theorem IrProgram.entry_of_getElem? {ir : IrProgram} {i : ℕ} {b : IrBasicBlock}
    (hb : ir.blocks[i]? = some b)
    (hid : ∀ (j : ℕ) (b' : IrBasicBlock), j < i → ir.blocks[j]? = some b' → b'.id ≠ b.id) :
    ir.entry b.id = some ((ir.blocks.take i).flatMap IrBasicBlock.nodes).length := by
  obtain ⟨hlt, rfl⟩ := List.getElem?_eq_some_iff.1 hb
  have hfind : ir.blocks.findIdx? (fun b' => b'.id = ir.blocks[i].id) = some i := by
    rw [List.findIdx?_eq_some_iff_getElem]
    refine ⟨hlt, decide_eq_true rfl, fun j hj => ?_⟩
    rw [decide_eq_true_eq]
    exact hid j _ hj (List.getElem?_eq_getElem (hj.trans hlt))
  rw [IrProgram.entry, hfind, Option.map_some]

structure IrState where
  /-- Position of the next node. -/
  ip : ℕ
  regs : PhysReg → U64
  stack : Fin stackSize → U8

namespace IrState

/-- Assign one register. -/
def setReg (t : IrState) (r : PhysReg) (v : U64) : IrState :=
  { t with regs := Function.update t.regs r v }

/-- Go to the next node. -/
def next (t : IrState) : IrState := { t with ip := t.ip + 1 }

end IrState

/-- What the meaning of the nodes depends on: the address of the stack buffer, and what prologues
and epilogues do to the registers. -/
structure IrContext (regmap : RegMap) where
  stackPtr : U64
  prologue : U16 → (PhysReg → U64) → PhysReg → U64
  epilogue : U16 → (PhysReg → U64) → PhysReg → U64
  prologue_phys : ∀ frameSize regs r,
    prologue frameSize regs (regmap.phys r) = regs (regmap.phys r)
  epilogue_phys : ∀ frameSize regs r,
    epilogue frameSize regs (regmap.phys r) = regs (regmap.phys r)

/-- Prologues and epilogues that keep all registers. -/
def IrContext.plain (regmap : RegMap) (stackPtr : U64) : IrContext regmap where
  stackPtr := stackPtr
  prologue _ regs := regs
  epilogue _ regs := regs
  prologue_phys _ _ _ := rfl
  epilogue_phys _ _ _ := rfl

def resolveOperand (regs : PhysReg → U64) : Operand → U64
  | .imm v => v
  | .reg r => regs r

/-- Does the branch condition hold? -/
def BranchCond.holds (cond : BranchCond) (regs : PhysReg → U64) : Bool :=
  if cond.is32bit then
    evalJmp cond.op (((regs cond.lhs).setWidth 32).setWidth 64)
      (((resolveOperand regs cond.rhs).setWidth 32).setWidth 64)
  else
    evalJmp cond.op (regs cond.lhs) (resolveOperand regs cond.rhs)

/-- Go to a block. -/
def IrProgram.goto (ir : IrProgram) (t : IrState) (target : BasicBlockId) : Rust Empty IrState :=
  match ir.entry target with
  | some ip => pure { t with ip }
  | none => panic

variable [Profile] {regmap : RegMap}

/-- Execute one node.  The lowering produces no spills, fills and labels; spills and fills have
no meaning here. -/
def execNode (ctx : IrContext regmap) (ir : IrProgram) (t : IrState) :
    IrNode → Rust Empty IrState
  | .alu64 op dst src => do
    let v ← evalAlu64 op (t.regs dst) (resolveOperand t.regs src)
    pure (t.setReg dst v).next
  | .alu32 op dst src => do
    let v ← evalAlu32 op ((t.regs dst).setWidth 32) ((resolveOperand t.regs src).setWidth 32)
    pure (t.setReg dst (v.setWidth 64)).next
  | .load width dst base off => do
    let rel ← stackRel ctx.stackPtr (t.regs base) off
    let val ← readStack t.stack rel width
    pure (t.setReg dst val).next
  | .store width base src off => do
    let rel ← stackRel ctx.stackPtr (t.regs base) off
    let stack ← writeStack t.stack rel width (t.regs src)
    pure { t with stack }.next
  | .storeImm width base off imm => do
    let rel ← stackRel ctx.stackPtr (t.regs base) off
    let stack ← writeStack t.stack rel width (imm.signExtend 64)
    pure { t with stack }.next
  | .loadImm64 dst imm => pure (t.setReg dst imm).next
  | .branch cond target => if cond.holds t.regs then ir.goto t target else pure t.next
  | .jump target => ir.goto t target
  | .call _ => pure (t.setReg (regmap.phys BpfReg.r0) 0).next
  | .ret => pure t
  | .spill .. | .fill .. => panic
  | .atomic .. => pure t.next
  | .endian toBe width dst => pure (t.setReg dst (evalEndian toBe width (t.regs dst))).next
  | .label _ => pure t.next
  | .prologue frameSize => pure { t with regs := ctx.prologue frameSize t.regs }.next
  | .epilogue frameSize => pure { t with regs := ctx.epilogue frameSize t.regs }.next

/-- Execute the next node; after the last node nothing happens. -/
def irStep (ctx : IrContext regmap) (ir : IrProgram) (t : IrState) : Rust Empty IrState :=
  match ir.code[t.ip]? with
  | some node => execNode ctx ir t node
  | none => pure t

/-- The run has come to a `ret`. -/
def AtRet (ir : IrProgram) (t : IrState) : Prop := ir.code[t.ip]? = some .ret

theorem irStep_of_getElem? {ctx : IrContext regmap} {ir : IrProgram} {t : IrState} {node : IrNode}
    (h : ir.code[t.ip]? = some node) : irStep ctx ir t = execNode ctx ir t node := by
  unfold irStep
  rw [h]

/-- A run stops at `ret`. -/
theorem irStep_of_atRet {ctx : IrContext regmap} {ir : IrProgram} {t : IrState}
    (h : AtRet ir t) : irStep ctx ir t = .ok t :=
  irStep_of_getElem? h

end NVMirror
