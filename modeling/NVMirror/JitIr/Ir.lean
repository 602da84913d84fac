import NVMirror.EbpfCore.Isa

/-!
# The intermediate representation (`crates/jit-ir/src/lib.rs`)

Nodes on physical registers, basic blocks with an id, programs with a frame size.
-/

namespace NVMirror

/-- Opaque basic-block identifier. -/
structure BasicBlockId where
  id : U32
  deriving DecidableEq, Repr

theorem BasicBlockId.eq_of_toNat_eq {b b' : BasicBlockId} (h : b.id.toNat = b'.id.toNat) :
    b = b' := by
  cases b
  cases b'
  exact congrArg _ (BitVec.eq_of_toNat_eq h)

/-- Physical register of the target; the numeric value is target-dependent. -/
structure PhysReg where
  num : U8
  deriving DecidableEq, Repr

/-- The register with a number of five bits. -/
def physOf (r : BitVec 5) : PhysReg := ⟨r.setWidth 8⟩

/-- Stack slot of a spilled register. -/
structure SpillSlot where
  offset : I16
  deriving DecidableEq, Repr

/-- Source operand: a physical register or an immediate. -/
inductive Operand
  | reg (r : PhysReg)
  | imm (v : I64)
  deriving DecidableEq, Repr

/-- Branch condition. -/
structure BranchCond where
  op : JmpOp
  lhs : PhysReg
  rhs : Operand
  is32bit : Bool
  deriving DecidableEq, Repr

/-- A lowered instruction. -/
inductive IrNode
  | alu64 (op : AluOp) (dst : PhysReg) (src : Operand)
  | alu32 (op : AluOp) (dst : PhysReg) (src : Operand)
  /-- `dst = *(width*)(base + off)` -/
  | load (width : MemWidth) (dst base : PhysReg) (off : I16)
  /-- `*(width*)(base + off) = src` -/
  | store (width : MemWidth) (base src : PhysReg) (off : I16)
  /-- `*(width*)(base + off) = imm` -/
  | storeImm (width : MemWidth) (base : PhysReg) (off : I16) (imm : I32)
  | loadImm64 (dst : PhysReg) (imm : U64)
  /-- Conditional branch to a block. -/
  | branch (cond : BranchCond) (target : BasicBlockId)
  | jump (target : BasicBlockId)
  | call (funcId : U32)
  | ret
  | spill (reg : PhysReg) (slot : SpillSlot)
  | fill (reg : PhysReg) (slot : SpillSlot)
  | atomic (width : MemWidth) (op : AtomicOp) (base src : PhysReg) (off : I16)
  | endian (toBe : Bool) (width : EndianWidth) (dst : PhysReg)
  /-- Pseudo-instruction: start of a block. -/
  | label (bb : BasicBlockId)
  | prologue (frameSize : U16)
  | epilogue (frameSize : U16)
  deriving DecidableEq, Repr

/-- Base, offset and width of a memory access. -/
def IrNode.memAccess : IrNode → Option (PhysReg × I16 × MemWidth)
  | .load width _ base off | .store width base _ off | .storeImm width base off _
  | .atomic width _ base _ off => some (base, off, width)
  | _ => none

/-- The target of a branch or jump node. -/
def IrNode.target : IrNode → Option BasicBlockId
  | .branch _ target | .jump target => some target
  | _ => none

/-- A basic block: an id, and nodes in order. -/
structure IrBasicBlock where
  id : BasicBlockId
  nodes : List IrNode
  deriving DecidableEq, Repr

/-- A lowered program. -/
structure IrProgram where
  blocks : List IrBasicBlock
  frameSize : U16
  deriving DecidableEq, Repr

/-- All nodes, in the order of the blocks. -/
def IrProgram.code (ir : IrProgram) : List IrNode := ir.blocks.flatMap IrBasicBlock.nodes

end NVMirror
