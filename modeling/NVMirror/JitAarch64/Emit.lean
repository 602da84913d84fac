import NVMirror.JitAarch64.Encode
import NVMirror.JitIr.Emitter

/-!
# The AArch64 emitter (`crates/jit-aarch64/src/lib.rs`)

Every instruction is one word.  `X9` holds materialised immediates, `X12` the quotient of a
remainder.  A relocation is conditional (`B.cond`) or not (`B`).
-/

namespace NVMirror.Aarch64

open Rust

/-- Why a program is not emitted. -/
inductive AArch64EmitError
  | bufferOverflow
  | unsupportedNode
  | relocationOutOfRange (bb : BasicBlockId)
  | invalidImmediate (value : I64)
  deriving DecidableEq, Repr

/-- The kind of a relocation is `is_conditional`. -/
abbrev AArch64Emitter := Emitter Bool

/-- Caller-saved scratch register. -/
def tmp : PhysReg := ⟨9⟩

/-- `MOVZ` for the lowest 16 bits, `MOVK` for each other non-zero chunk. -/
def emitLoadImm64 (dst : PhysReg) (imm : U64) : List U32 :=
  let chunks : List U16 :=
    [(imm &&& 0xFFFF).setWidth 16, ((imm >>> 16) &&& 0xFFFF).setWidth 16,
      ((imm >>> 32) &&& 0xFFFF).setWidth 16, ((imm >>> 48) &&& 0xFFFF).setWidth 16]
  -- the last non-zero chunk
  let top := ((chunks.zipIdx.filter fun x => x.1 ≠ 0).getLast?.map Prod.snd).getD 0
  movzX dst.num (chunks.getD 0 0) 0 ::
    (chunks.zipIdx.drop 1).flatMap fun (chunk, shift) =>
      if shift ≤ top then
        if chunk ≠ 0 then [movkX dst.num chunk (BitVec.ofNat 8 shift)] else []
      else []

/-- Put an immediate into `tmp`. -/
def materializeImm (val : I64) (tmp : PhysReg) : List U32 × PhysReg := (emitLoadImm64 tmp val, tmp)

section

variable {ε : Type} [Profile]

/-- Immediates without an encoding are put into `tmp`. -/
def emitAlu64Node (op : AluOp) (dst : PhysReg) (src : Operand) : Rust ε (List U32) :=
  match op, src with
  | .add, .reg rs => pure [addXReg dst.num dst.num rs.num]
  | .sub, .reg rs => pure [subXReg dst.num dst.num rs.num]
  | .mul, .reg rs => pure [mulX dst.num dst.num rs.num]
  | .div, .reg rs => pure [udivX dst.num dst.num rs.num]
  | .mod, .reg rs => pure [udivX 12 dst.num rs.num, msubX dst.num 12 rs.num dst.num]
  | .or, .reg rs => pure [orrXReg dst.num dst.num rs.num]
  | .and, .reg rs => pure [andXReg dst.num dst.num rs.num]
  | .xor, .reg rs => pure [eorXReg dst.num dst.num rs.num]
  | .lsh, .reg rs => pure [lslvX dst.num dst.num rs.num]
  | .rsh, .reg rs => pure [lsrvX dst.num dst.num rs.num]
  | .arsh, .reg rs => pure [asrvX dst.num dst.num rs.num]
  | .mov, .reg rs => pure [movXReg dst.num rs.num]
  | .neg, .reg _ | .neg, .imm _ => pure [subXReg dst.num 31 dst.num]
  | .mov, .imm v => pure (emitLoadImm64 dst v)
  | .lsh, .imm v => do
    let word ← lslXImm dst.num dst.num ((v &&& 63).setWidth 8)
    pure [word]
  | .rsh, .imm v => pure [lsrXImm dst.num dst.num ((v &&& 63).setWidth 8)]
  | .arsh, .imm v => pure [asrXImm dst.num dst.num ((v &&& 63).setWidth 8)]
  | op, .imm v =>
    if op = .add ∧ 0 ≤ v.toInt ∧ v.toInt < 4096 then
      pure [addXImm dst.num dst.num (v.setWidth 16)]
    else if op = .sub ∧ 0 ≤ v.toInt ∧ v.toInt < 4096 then
      pure [subXImm dst.num dst.num (v.setWidth 16)]
    else do
      let (ws, rs) := materializeImm v tmp
      let ws' ← emitAlu64Node op dst (.reg rs)
      pure (ws ++ ws')
termination_by match src with | .imm _ => 1 | .reg _ => 0

end

/-- `emitAlu64Node` on the low halves. -/
def emitAlu32Node (op : AluOp) (dst : PhysReg) (src : Operand) : List U32 :=
  match op, src with
  | .add, .reg rs => [addWReg dst.num dst.num rs.num]
  | .sub, .reg rs => [subWReg dst.num dst.num rs.num]
  | .mul, .reg rs => [mulW dst.num dst.num rs.num]
  | .div, .reg rs => [udivW dst.num dst.num rs.num]
  | .or, .reg rs => [orrWReg dst.num dst.num rs.num]
  | .and, .reg rs => [andWReg dst.num dst.num rs.num]
  | .xor, .reg rs => [eorWReg dst.num dst.num rs.num]
  | .lsh, .reg rs => [lslvW dst.num dst.num rs.num]
  | .rsh, .reg rs => [lsrvW dst.num dst.num rs.num]
  | .arsh, .reg rs => [asrvW dst.num dst.num rs.num]
  | .mov, .reg rs => [movWReg dst.num rs.num]
  | .neg, .reg _ | .neg, .imm _ => [subWReg dst.num 31 dst.num]
  | .mod, .reg rs => [udivW 12 dst.num rs.num, msubW dst.num 12 rs.num dst.num]
  | .mov, .imm v =>
    movzW dst.num (v.setWidth 16) 0 ::
      if 0xFFFF < v.toNat then [movkW dst.num ((v >>> 16).setWidth 16) 1] else []
  | op, .imm v =>
    if op = .add ∧ 0 ≤ v.toInt ∧ v.toInt < 4096 then
      [addWImm dst.num dst.num (v.setWidth 16)]
    else if op = .sub ∧ 0 ≤ v.toInt ∧ v.toInt < 4096 then
      [subWImm dst.num dst.num (v.setWidth 16)]
    else
      let (ws, rs) := materializeImm v tmp
      ws ++ emitAlu32Node op dst (.reg rs)
termination_by match src with | .imm _ => 1 | .reg _ => 0

/-- One load; the width decides which. -/
def emitLoadNode (width : MemWidth) (dst base : PhysReg) (off : I16) : List U32 :=
  match width with
  | .b => [ldrbImm dst.num base.num off]
  | .h => [ldrhImm dst.num base.num off]
  | .w => [ldrWImm dst.num base.num off]
  | .dw => [ldrXImm dst.num base.num off]

/-- One store; the width decides which. -/
def emitStoreNode (width : MemWidth) (base src : PhysReg) (off : I16) : List U32 :=
  match width with
  | .b => [strbImm src.num base.num off]
  | .h => [strhImm src.num base.num off]
  | .w => [strWImm src.num base.num off]
  | .dw => [strXImm src.num base.num off]

/-- Map eBPF `JmpOp` to AArch64 condition code. -/
def jmpopToConditionCode : JmpOp → U8
  | .jeq => ccEq
  | .jne => ccNe
  | .jgt => ccHi
  | .jge => ccHs
  | .jlt => ccLo
  | .jle => ccLs
  | .jsgt => ccGt
  | .jsge => ccGe
  | .jslt => ccLt
  | .jsle => ccLe
  | .jset => ccNe
  | .ja => ccAl

/-- `CMP`, then `B.cond` with a placeholder offset. -/
def emitBranchNode (e : AArch64Emitter) (cond : BranchCond) (target : BasicBlockId) :
    AArch64Emitter :=
  let (e, rhsReg) :=
    match cond.rhs with
    | .reg r => (e, r)
    | .imm v => (e.emitWords (materializeImm v tmp).1, tmp)
  let e :=
    if cond.is32bit then e.emit32 (cmpWReg cond.lhs.num rhsReg.num)
    else e.emit32 (cmpXReg cond.lhs.num rhsReg.num)
  let cc := jmpopToConditionCode cond.op
  let relocOffset := e.currentOffset
  let e := e.emit32 (bCond cc 0)
  e.pushRelocation relocOffset target true

/-- The word of the operation itself; `base` is the register with the address. -/
def atomicWord (op : AtomicOp) (src base : PhysReg) : U32 :=
  match op with
  | .add | .fetchAdd => ldaddX src.num 31 base.num
  | .or | .fetchOr => ldsetX src.num 31 base.num
  | .and | .fetchAnd => ldclrX src.num 31 base.num
  | .xor | .fetchXor => ldeorX src.num 31 base.num
  | .xchg => swpX src.num 31 base.num
  | .cmpXchg => casX 0 src.num base.num

/-- The address, then the operation between two barriers. -/
def emitAtomicNode (op : AtomicOp) (base src : PhysReg) (off : I16) : List U32 :=
  (if off ≠ 0 then
      emitLoadImm64 tmp (off.signExtend 64) ++ [addXReg tmp.num base.num tmp.num]
    else [movXReg tmp.num base.num]) ++
    [dmbIsh, atomicWord op src tmp, dmbIsh]

/-- Byte reversal; to little-endian there is nothing to do. -/
def emitEndianNode (toBe : Bool) (width : EndianWidth) (dst : PhysReg) : List U32 :=
  if toBe then
    match width with
    | .bits16 => [rev16W dst.num dst.num, andXImmMask dst.num dst.num 0xFFFF]
    | .bits32 => [revW dst.num dst.num]
    | .bits64 => [revX dst.num dst.num]
  else []

/-! ### Nodes and programs -/

/-- Words of a prologue. -/
def emitPrologue {ε : Type} [Profile] (frameSize : U16) : Rust ε (List U32) := do
  let off ← negS frameSize
  pure [stpPre 29 30 31 off, movXReg 29 31, stpOffset 19 20 31 16, stpOffset 21 22 31 32,
    strXImm 25 31 48]

/-- Words of an epilogue. -/
def emitEpilogue (frameSize : U16) : List U32 :=
  [ldpOffset 19 20 31 16, ldpOffset 21 22 31 32, ldrXImm 25 31 48, ldpPost 29 30 31 frameSize]

variable [Profile]

/-- Emit one node. -/
def emitNode (e : AArch64Emitter) : IrNode → Rust AArch64EmitError AArch64Emitter
  | .alu64 op dst src => do
    let ws ← emitAlu64Node op dst src
    pure (e.emitWords ws)
  | .alu32 op dst src => pure (e.emitWords (emitAlu32Node op dst src))
  | .load width dst base off => pure (e.emitWords (emitLoadNode width dst base off))
  | .store width base src off => pure (e.emitWords (emitStoreNode width base src off))
  | .storeImm width base off imm =>
    pure (e.emitWords (emitLoadImm64 tmp (imm.signExtend 64) ++ emitStoreNode width base tmp off))
  | .loadImm64 dst imm => pure (e.emitWords (emitLoadImm64 dst imm))
  | .branch cond target => pure (emitBranchNode e cond target)
  | .jump target => pure ((e.emit32 (bImm 0)).pushRelocation e.currentOffset target false)
  | .call _ => pure (e.emit32 (blr 9))
  -- eBPF R0 is X7; the caller expects the result in X0
  | .ret => pure (e.emitWords [movXReg 0 7, ret])
  | .spill reg slot => pure (e.emit32 (strXImm reg.num 31 slot.offset))
  | .fill reg slot => pure (e.emit32 (ldrXImm reg.num 31 slot.offset))
  | .atomic _ op base src off => pure (e.emitWords (emitAtomicNode op base src off))
  | .endian toBe width dst => pure (e.emitWords (emitEndianNode toBe width dst))
  | .label bb => e.emitLabel bb
  | .prologue frameSize => do
    let ws ← emitPrologue frameSize
    pure (e.emitWords ws)
  | .epilogue frameSize => pure (e.emitWords (emitEpilogue frameSize))

omit [Profile] in
/-- The patched word of a branch: `B.cond` has 19 bits for the displacement in words, `B` has 26. -/
def patch (isConditional : Bool) (branchOffset : ℤ) : Option (U32 → U32) :=
  let imm := branchOffset.tdiv 4
  if isConditional then
    if imm < -2 ^ 18 ∨ 2 ^ 18 ≤ imm then none
    else some fun existing =>
      (existing &&& 0xFF00001F) ||| ((BitVec.ofInt 32 imm &&& 0x7FFFF) <<< 5)
  else
    if imm < -2 ^ 25 ∨ 2 ^ 25 ≤ imm then none
    else some fun _ => 0x14000000 ||| (BitVec.ofInt 32 imm &&& 0x03FFFFFF)

omit [Profile] in
/-- Patch the branches; on success the finished code. -/
def finalize (e : AArch64Emitter) : Rust AArch64EmitError (List U8) :=
  e.patchRelocations .relocationOutOfRange patch

/-- Emit all nodes, each block after its label. -/
def emitProgram (e : AArch64Emitter) (program : IrProgram) :
    Rust AArch64EmitError AArch64Emitter :=
  e.emitProgram emitNode program

/-- Most words of a node. -/
def maxExpansionRatio : ℕ := 8

omit [Profile] in
/-- An upper bound on the size of the code. -/
def calculateSize (program : IrProgram) : ℕ := Emitter.calculateSize maxExpansionRatio program

end NVMirror.Aarch64
