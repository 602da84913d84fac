import NVMirror.JitIr.Emitter
import NVMirror.JitRiscv.Encode

/-!
# The RISC-V emitter (`crates/jit-riscv/src/lib.rs`)

Every instruction is one word; `s7` (register 23) is the scratch register.  A relocation is a
`JAL` or a conditional branch.
-/

namespace NVMirror.Riscv

open Rust

/-- Why a program is not emitted. -/
inductive RiscVEmitError
  | bufferOverflow
  | unsupportedNode
  | relocationOutOfRange (bb : BasicBlockId)
  | invalidImmediate (value : I64)
  deriving DecidableEq, Repr

/-- How a branch is patched. -/
inductive RelocKind
  /-- J type: 20-bit signed offset. -/
  | jal
  /-- B type: 12-bit signed offset. -/
  | branch
  deriving DecidableEq, Repr

/-- The kind of a relocation is a `RelocKind`. -/
abbrev RiscVEmitter := Emitter RelocKind

/-- `s7`, the scratch register. -/
def tmp : U8 := 23

section

variable {ε : Type} [Profile]

/-- Upper and lower part of a constant: `((val + 0x800) >> 12) as i32` and
`(val as i32) & 0xFFF`. -/
def splitImm (val : I64) : Rust ε (I32 × I32) := do
  let rounded ← addS val 0x800
  pure ((rounded.sshiftRight 12).setWidth 32, val.setWidth 32 &&& 0xFFF)

/-- A constant: up to 12 bits, up to 32 bits, or both halves one after the other. -/
def emitLoadImm64 (rd : U8) (imm : U64) : Rust ε (List U32) :=
  if imm = 0 then pure [addi rd 0 0]
  else if -2048 ≤ imm.toInt ∧ imm.toInt < 2048 then pure [addi rd 0 (imm.setWidth 32)]
  else if -2147483648 ≤ imm.toInt ∧ imm.toInt < 2147483648 then do
    let (hi, lo) ← splitImm imm
    pure (lui rd hi :: if lo ≠ 0 then [addi rd rd (signExtend12 lo)] else [])
  else do
    let upper := imm >>> 32
    let lower := imm &&& 0xFFFFFFFF
    let (hiUpper, loUpper) ← splitImm upper
    let (hiLower, loLower) ← splitImm lower
    pure (lui rd hiUpper :: (if loUpper ≠ 0 then [addi rd rd (signExtend12 loUpper)] else []) ++
      [slli rd rd 32] ++
      if hiLower ≠ 0 then
        lui tmp hiLower :: (if loLower ≠ 0 then [addi tmp tmp (signExtend12 loLower)] else []) ++
          [add rd rd tmp]
      else if loLower ≠ 0 then [addi tmp 0 (signExtend12 loLower), add rd rd tmp]
      else [])

/-- Put an immediate into `tmp`. -/
def materializeImm (val : I64) (tmp : U8) : Rust ε (List U32 × U8) := do
  let ws ← emitLoadImm64 tmp val
  pure (ws, tmp)

/-- Immediates without an encoding are put into `tmp`. -/
def emitAlu64Node (op : AluOp) (dst : PhysReg) (src : Operand) : Rust ε (List U32) :=
  match op, src with
  | .add, .reg rs => pure [add dst.num dst.num rs.num]
  | .sub, .reg rs => pure [sub dst.num dst.num rs.num]
  | .mul, .reg rs => pure [mul dst.num dst.num rs.num]
  | .div, .reg rs => pure [divu dst.num dst.num rs.num]
  | .mod, .reg rs => pure [remu dst.num dst.num rs.num]
  | .or, .reg rs => pure [or dst.num dst.num rs.num]
  | .and, .reg rs => pure [and dst.num dst.num rs.num]
  | .xor, .reg rs => pure [xor dst.num dst.num rs.num]
  | .lsh, .reg rs => pure [sll dst.num dst.num rs.num]
  | .rsh, .reg rs => pure [srl dst.num dst.num rs.num]
  | .arsh, .reg rs => pure [sra dst.num dst.num rs.num]
  | .mov, .reg rs => pure [addi dst.num rs.num 0]
  | .neg, .reg _ | .neg, .imm _ => pure [sub dst.num 0 dst.num]
  | .mov, .imm v => emitLoadImm64 dst.num v
  | .lsh, .imm v => pure [slli dst.num dst.num ((v &&& 63).setWidth 32)]
  | .rsh, .imm v => pure [srli dst.num dst.num ((v &&& 63).setWidth 32)]
  | .arsh, .imm v => pure [srai dst.num dst.num ((v &&& 63).setWidth 32)]
  | op, .imm v =>
    if op = .add ∧ -2048 ≤ v.toInt ∧ v.toInt < 2048 then
      pure [addi dst.num dst.num (v.setWidth 32)]
    else if op = .and ∧ -2048 ≤ v.toInt ∧ v.toInt < 2048 then
      pure [andi dst.num dst.num (v.setWidth 32)]
    else if op = .or ∧ -2048 ≤ v.toInt ∧ v.toInt < 2048 then
      pure [ori dst.num dst.num (v.setWidth 32)]
    else if op = .xor ∧ -2048 ≤ v.toInt ∧ v.toInt < 2048 then
      pure [xori dst.num dst.num (v.setWidth 32)]
    else do
      let (ws, rs) ← materializeImm v tmp
      let ws' ← emitAlu64Node op dst (.reg ⟨rs⟩)
      pure (ws ++ ws')
termination_by match src with | .imm _ => 1 | .reg _ => 0

/-- Clear the upper half: `SLLI` and `SRLI` by 32. -/
def zeroExtend (dst : PhysReg) : List U32 := [slli dst.num dst.num 32, srli dst.num dst.num 32]

/-- `emitAlu64Node` on the low halves. -/
def emitAlu32Node (op : AluOp) (dst : PhysReg) (src : Operand) : Rust ε (List U32) :=
  match op, src with
  | .add, .reg rs => pure [addw dst.num dst.num rs.num]
  | .sub, .reg rs => pure [subw dst.num dst.num rs.num]
  | .mul, .reg rs => pure [mulw dst.num dst.num rs.num]
  | .div, .reg rs => pure [divuw dst.num dst.num rs.num]
  | .mod, .reg rs => pure [remuw dst.num dst.num rs.num]
  | .lsh, .reg rs => pure [sllw dst.num dst.num rs.num]
  | .rsh, .reg rs => pure [srlw dst.num dst.num rs.num]
  | .arsh, .reg rs => pure [sraw dst.num dst.num rs.num]
  | .mov, .reg rs => pure (addi dst.num rs.num 0 :: zeroExtend dst)
  | .or, .reg rs => pure (or dst.num dst.num rs.num :: zeroExtend dst)
  | .and, .reg rs => pure (and dst.num dst.num rs.num :: zeroExtend dst)
  | .xor, .reg rs => pure (xor dst.num dst.num rs.num :: zeroExtend dst)
  | .neg, .reg _ | .neg, .imm _ => pure [subw dst.num 0 dst.num]
  | op, .imm v => do
    let (ws, rs) ← materializeImm v tmp
    let ws' ← emitAlu32Node op dst (.reg ⟨rs⟩)
    pure (ws ++ ws')
termination_by match src with | .imm _ => 1 | .reg _ => 0

end

/-- One load; the width decides which. -/
def emitLoadNode (width : MemWidth) (dst base : PhysReg) (off : I16) : List U32 :=
  match width with
  | .b => [lbu dst.num base.num (off.signExtend 32)]
  | .h => [lhu dst.num base.num (off.signExtend 32)]
  | .w => [lwu dst.num base.num (off.signExtend 32)]
  | .dw => [ld dst.num base.num (off.signExtend 32)]

/-- One store; the width decides which. -/
def emitStoreNode (width : MemWidth) (base src : PhysReg) (off : I16) : List U32 :=
  match width with
  | .b => [sb src.num base.num (off.signExtend 32)]
  | .h => [sh src.num base.num (off.signExtend 32)]
  | .w => [sw src.num base.num (off.signExtend 32)]
  | .dw => [sd src.num base.num (off.signExtend 32)]

variable [Profile]

/-- The register with the right-hand side, after the words that put an immediate there. -/
def branchRhs {ε : Type} : Operand → Rust ε (List U32 × U8)
  | .reg r => pure ([], r.num)
  | .imm v => materializeImm v tmp

/-- The branch, with a placeholder offset.  Without a branch for `Jset` the operands are combined
in `tmp` first. -/
def emitBranchNode {ε : Type} (e : RiscVEmitter) (cond : BranchCond) (target : BasicBlockId) :
    Rust ε RiscVEmitter := do
  let (ws, rhsReg) ← branchRhs cond.rhs
  let e := e.emitWords ws
  let relocOffset := e.currentOffset
  let lhs := cond.lhs.num
  let (e, insn) := match cond.op with
    | .jeq => (e, beq lhs rhsReg 0)
    | .jne => (e, bne lhs rhsReg 0)
    | .jgt => (e, bltu rhsReg lhs 0)
    | .jge => (e, bgeu lhs rhsReg 0)
    | .jlt => (e, bltu lhs rhsReg 0)
    | .jle => (e, bgeu rhsReg lhs 0)
    | .jsgt => (e, blt rhsReg lhs 0)
    | .jsge => (e, bge lhs rhsReg 0)
    | .jslt => (e, blt lhs rhsReg 0)
    | .jsle => (e, bge rhsReg lhs 0)
    | .jset => (e.emit32 (and tmp lhs rhsReg), bne tmp 0 0)
    | .ja => (e, jal 0 0)
  let e := e.emit32 insn
  pure (e.pushRelocation (relocOffset + if cond.op = .jset then 4 else 0) target .branch)

/-- A `usize` as `i32`. -/
def asI32 (n : ℕ) : I32 := BitVec.ofNat 32 n

/-- The operation between two fences; compare-and-exchange is a loop. -/
def emitAtomicNode {ε : Type} (e : RiscVEmitter) (op : AtomicOp) (base src : PhysReg)
    (off : I16) : Rust ε RiscVEmitter := do
  let e := e.emit32 (if off ≠ 0 then addi tmp base.num (off.signExtend 32) else addi tmp base.num 0)
  let e := e.emit32 fenceRwRw
  let e ← match op with
    | .add | .fetchAdd => pure (e.emit32 (amoaddD 0 src.num tmp))
    | .or | .fetchOr => pure (e.emit32 (amoorD 0 src.num tmp))
    | .and | .fetchAnd => pure (e.emit32 (amoandD 0 src.num tmp))
    | .xor | .fetchXor => pure (e.emit32 (amoxorD 0 src.num tmp))
    | .xchg => pure (e.emit32 (amoswapD 0 src.num tmp))
    | .cmpXchg => do
      let loopStart := e.currentOffset
      let e := e.emit32 (lrD tmp tmp)
      let e := e.emit32 (bne tmp 10 12)
      let e := e.emit32 (scD tmp src.num tmp)
      let back ← subS (asI32 loopStart) (asI32 e.currentOffset)
      pure (e.emit32 (bne tmp 0 back))
  pure (e.emit32 fenceRwRw)

/-- A placeholder that does nothing. -/
def emitEndianNode (_toBe : Bool) (_width : EndianWidth) (dst : PhysReg) : List U32 :=
  [addi dst.num dst.num 0]

/-! ### Nodes and programs -/

/-- `*frame_size as i32 - k` -/
def frameOff {ε : Type} (frameSize : U16) (k : I32) : Rust ε I32 := subS (frameSize.setWidth 32) k

/-- Words of a prologue: save `ra`, `s0` and `s2..s6`, and set `s0`. -/
def emitPrologue {ε : Type} (frameSize : U16) : Rust ε (List U32) := do
  let down ← negS (frameSize.setWidth 32)
  let ra ← frameOff frameSize 8
  let s0 ← frameOff frameSize 16
  let s2 ← frameOff frameSize 24
  let s3 ← frameOff frameSize 32
  let s4 ← frameOff frameSize 40
  let s5 ← frameOff frameSize 48
  let s6 ← frameOff frameSize 56
  pure [addi 2 2 down, sd 1 2 ra, sd 8 2 s0, sd 18 2 s2, sd 19 2 s3, sd 20 2 s4, sd 21 2 s5,
    sd 22 2 s6, addi 8 2 (frameSize.setWidth 32)]

/-- Words of an epilogue. -/
def emitEpilogue {ε : Type} (frameSize : U16) : Rust ε (List U32) := do
  let s6 ← frameOff frameSize 56
  let s5 ← frameOff frameSize 48
  let s4 ← frameOff frameSize 40
  let s3 ← frameOff frameSize 32
  let s2 ← frameOff frameSize 24
  let s0 ← frameOff frameSize 16
  let ra ← frameOff frameSize 8
  pure [ld 22 2 s6, ld 21 2 s5, ld 20 2 s4, ld 19 2 s3, ld 18 2 s2, ld 8 2 s0, ld 1 2 ra,
    addi 2 2 (frameSize.setWidth 32)]

/-- Emit one node. -/
def emitNode (e : RiscVEmitter) : IrNode → Rust RiscVEmitError RiscVEmitter
  | .alu64 op dst src => do
    let ws ← emitAlu64Node op dst src
    pure (e.emitWords ws)
  | .alu32 op dst src => do
    let ws ← emitAlu32Node op dst src
    pure (e.emitWords ws)
  | .load width dst base off => pure (e.emitWords (emitLoadNode width dst base off))
  | .store width base src off => pure (e.emitWords (emitStoreNode width base src off))
  | .storeImm width base off imm => do
    let ws ← emitLoadImm64 tmp (imm.signExtend 64)
    pure (e.emitWords (ws ++ emitStoreNode width base ⟨tmp⟩ off))
  | .loadImm64 dst imm => do
    let ws ← emitLoadImm64 dst.num imm
    pure (e.emitWords ws)
  | .branch cond target => emitBranchNode e cond target
  | .jump target => pure ((e.emit32 (jal 0 0)).pushRelocation e.currentOffset target .jal)
  | .call _ => pure (e.emit32 (jalr 1 23 0))
  | .ret => pure (e.emit32 (jalr 0 1 0))
  | .spill reg slot => pure (e.emit32 (sd reg.num 2 (slot.offset.signExtend 32)))
  | .fill reg slot => pure (e.emit32 (ld reg.num 2 (slot.offset.signExtend 32)))
  | .atomic _ op base src off => emitAtomicNode e op base src off
  | .endian toBe width dst => pure (e.emitWords (emitEndianNode toBe width dst))
  | .label bb => e.emitLabel bb
  | .prologue frameSize => do
    let ws ← emitPrologue frameSize
    pure (e.emitWords ws)
  | .epilogue frameSize => do
    let ws ← emitEpilogue frameSize
    pure (e.emitWords ws)

omit [Profile] in
/-- The patched word of a branch. -/
def patch (kind : RelocKind) (offset : ℤ) : Option (U32 → U32) :=
  match kind with
  | .jal =>
    if offset < -2 ^ 20 ∨ 2 ^ 20 ≤ offset then none
    else some fun existing =>
      encodeJTypeImm (BitVec.ofInt 32 offset) ||| 0x6F ||| (existing &&& 0xF80)
  | .branch =>
    if offset < -2 ^ 12 ∨ 2 ^ 12 ≤ offset then none
    else some fun existing => encodeBTypeImm (BitVec.ofInt 32 offset) ||| (existing &&& 0x01FFF07F)

omit [Profile] in
/-- Patch the branches; on success the finished code. -/
def finalize (e : RiscVEmitter) : Rust RiscVEmitError (List U8) :=
  e.patchRelocations .relocationOutOfRange patch

/-- Emit all nodes, each block after its label. -/
def emitProgram (e : RiscVEmitter) (program : IrProgram) : Rust RiscVEmitError RiscVEmitter :=
  e.emitProgram emitNode program

/-- Most words of a node. -/
def maxExpansionRatio : ℕ := 10

omit [Profile] in
/-- An upper bound on the size of the code. -/
def calculateSize (program : IrProgram) : ℕ := Emitter.calculateSize maxExpansionRatio program

end NVMirror.Riscv
