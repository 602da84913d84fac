import NVMirror.EbpfCore.Verify
import NVMirror.JitIr.Ir

/-!
# Lowering (`crates/jit-regalloc/src/lib.rs`)

`lowerToIr` makes four passes over the program: it marks the leaders (`findLeaders`), numbers the
blocks (`numberBlocks`), computes the frame size (`frameSizeOf`) and lowers the instructions one
by one, starting a new block at each leader (`lowerStep`).
-/

namespace NVMirror

open Rust

/-- Register mapping of a target. -/
structure RegMap where
  map : BpfReg → PhysReg
  /-- Temporary register (not mapped to any eBPF register). -/
  tmp : PhysReg
  /-- Base pointer for bounds checks. -/
  boundsBase : PhysReg
  /-- Length register for bounds checks. -/
  boundsLen : PhysReg

namespace RegMap

/-- The physical register of an eBPF register. -/
def phys (regmap : RegMap) (bpf : BpfReg) : PhysReg := regmap.map bpf

/-- The operand of a source. -/
def translateSource (regmap : RegMap) : Source → Operand
  | .imm v => .imm v
  | .reg r => .reg (regmap.phys r)

end RegMap

/-- A mapping from the array of register numbers. -/
def regMapOf (nums : Fin numRegs → U8) (tmp boundsBase boundsLen : U8) : RegMap where
  map r := ⟨nums r⟩
  tmp := ⟨tmp⟩
  boundsBase := ⟨boundsBase⟩
  boundsLen := ⟨boundsLen⟩

/-- `R0` is in `X7`, `R1..R5` in `X0..X4`, `R6..R9` in `X19..X22`, `R10` in `X25`. -/
def aarch64Regmap : RegMap := regMapOf ![7, 0, 1, 2, 3, 4, 19, 20, 21, 22, 25] 9 10 11

/-- `R0..R5` are in `a0..a5`, `R6..R10` in `s2..s6`. -/
def riscv64Regmap : RegMap := regMapOf ![10, 11, 12, 13, 14, 15, 18, 19, 20, 21, 22] 23 24 25

/-! ### Leaders and block numbers -/

/-- Loop body of the leader search. -/
def markLeader (n : ℕ) (isLeader : List Bool) (x : Insn × ℕ) : Rust Empty (List Bool) :=
  let (insn, pc) := x
  match insn with
  | .ja off | .jmpCond _ _ _ off | .jmpCond32 _ _ _ off => do
    let target ← jumpPc pc off
    let isLeader ← if target < n then setAt isLeader target true else pure isLeader
    markNext n pc isLeader
  | .exit | .tailCall => markNext n pc isLeader
  | _ => pure isLeader

/-- The flags of the instructions that start a block. -/
def findLeaders (insns : List Insn) : Rust Empty (List Bool) := do
  let n := insns.length
  let isLeader ← setAt (List.replicate n false) 0 true
  insns.zipIdx.foldlM (markLeader n) isLeader

variable [Profile]

/-- Loop body of the block numbering; the state is `(pc_to_bb, next_bb)`. -/
def numberPc (acc : List BasicBlockId × U32) (x : Bool × ℕ) :
    Rust Empty (List BasicBlockId × U32) := do
  let (pcToBb, nextBb) := acc
  let (leader, pc) := x
  if leader then
    let pcToBb ← setAt pcToBb pc ⟨nextBb⟩
    let nextBb ← addU nextBb 1
    pure (pcToBb, nextBb)
  else if 0 < pc then
    let pc1 ← usizeSub pc 1
    let prev ← index pcToBb pc1
    let pcToBb ← setAt pcToBb pc prev
    pure (pcToBb, nextBb)
  else
    pure (pcToBb, nextBb)

/-- The block of each instruction: blocks are numbered in order. -/
def numberBlocks (isLeader : List Bool) : Rust Empty (List BasicBlockId) := do
  let (pcToBb, _) ← isLeader.zipIdx.foldlM numberPc (List.replicate isLeader.length ⟨0⟩, 0)
  pure pcToBb

/-! ### Frame size -/

omit [Profile] in
/-- Offset of an access relative to `R10`. -/
def stackOff : Insn → Option I16
  | .load _ _ src off => if src = BpfReg.r10 then some off else none
  | .storeReg _ dst _ off => if dst = BpfReg.r10 then some off else none
  | .storeImm _ dst off _ => if dst = BpfReg.r10 then some off else none
  | .atomic _ _ dst _ off => if dst = BpfReg.r10 then some off else none
  | _ => none

omit [Profile] in
/-- Writes to `R6..R9`, and calls, need a frame. -/
def needsFrame : Insn → Bool
  | .alu64 _ dst _ | .alu32 _ dst _ | .loadImm64 dst _ | .load _ dst _ _ | .endian _ _ dst =>
    6 ≤ dst.index && dst.index ≤ 9
  | .call _ | .tailCall => true
  | .storeReg .. | .storeImm .. | .jmpCond .. | .jmpCond32 .. | .ja _ | .exit | .atomic .. => false

/-- Loop body of the frame size computation; the state is `(frame_size, needs_frame)`. -/
def frameStep (acc : U16 × Bool) (insn : Insn) : Rust Empty (U16 × Bool) := do
  let (frameSize, needs) := acc
  match stackOff insn with
  | some o => do
    let needed ← negS o
    pure (if frameSize < needed then needed else frameSize, true)
  | none => pure (frameSize, needs || needsFrame insn)

/-- The frame size: what the accesses to the stack and the saved registers need. -/
def frameSizeOf (insns : List Insn) : Rust Empty U16 := do
  let (frameSize, needs) ← insns.foldlM frameStep (0, false)
  -- callee-saved registers need 64 bytes; the frame is a multiple of 16 bytes
  let frameSize := if needs && frameSize < 64 then 64 else frameSize
  let frameSize ← addU frameSize 15
  pure (frameSize &&& ~~~15)

/-! ### Lowering -/

omit [Profile] in
/-- Block of a jump target. -/
def targetBb (pcToBb : List BasicBlockId) (pc : ℕ) (off : I16) : Rust Empty BasicBlockId := do
  let targetPc ← jumpPc pc off
  index pcToBb targetPc

omit [Profile] in
/-- The nodes of one instruction. -/
def lowerInsn (regmap : RegMap) (pcToBb : List BasicBlockId) (frameSize : U16) (pc : ℕ) :
    Insn → Rust Empty (List IrNode)
  | .alu64 op dst src => pure [.alu64 op (regmap.phys dst) (regmap.translateSource src)]
  | .alu32 op dst src => pure [.alu32 op (regmap.phys dst) (regmap.translateSource src)]
  | .load width dst src off => pure [.load width (regmap.phys dst) (regmap.phys src) off]
  | .storeReg width dst src off => pure [.store width (regmap.phys dst) (regmap.phys src) off]
  | .storeImm width dst off imm => pure [.storeImm width (regmap.phys dst) off imm]
  | .loadImm64 dst imm => pure [.loadImm64 (regmap.phys dst) imm]
  | .jmpCond op dst src off => do
    let target ← targetBb pcToBb pc off
    pure [.branch ⟨op, regmap.phys dst, regmap.translateSource src, false⟩ target]
  | .jmpCond32 op dst src off => do
    let target ← targetBb pcToBb pc off
    pure [.branch ⟨op, regmap.phys dst, regmap.translateSource src, true⟩ target]
  | .ja off => do
    let target ← targetBb pcToBb pc off
    pure [.jump target]
  | .call funcId => pure [.call funcId]
  -- tail calls are lowered as a jump to the helper dispatch
  | .tailCall => pure [.call 0, .ret]
  | .exit => pure (if 0 < frameSize then [.epilogue frameSize, .ret] else [.ret])
  | .atomic width op dst src off =>
    pure [.atomic width op (regmap.phys dst) (regmap.phys src) off]
  | .endian toBe width dst => pure [.endian toBe width (regmap.phys dst)]

/-- The blocks finished so far, the nodes of the current one, and its number. -/
structure LowerState where
  blocks : List IrBasicBlock
  currentNodes : List IrNode
  bbId : U32

omit [Profile] in
/-- Push the current block. -/
def LowerState.flush (st : LowerState) : List IrBasicBlock :=
  st.blocks ++ [⟨⟨st.bbId⟩, st.currentNodes⟩]

/-- At a leader: push the current block, and start block 0 with the prologue. -/
def startBlock (isLeader : List Bool) (frameSize : U16) (st : LowerState) (pc : ℕ) :
    Rust Empty LowerState := do
  let leader ← index isLeader pc
  if leader ∧ (st.currentNodes ≠ [] ∨ pc = 0) then
    let st ←
      if st.currentNodes ≠ [] then do
        let bbId ← addU st.bbId 1
        pure { blocks := st.flush, currentNodes := [], bbId }
      else pure st
    if pc = 0 ∧ 0 < frameSize then
      pure { st with currentNodes := st.currentNodes ++ [.prologue frameSize] }
    else pure st
  else pure st

/-- Loop body of the lowering. -/
def lowerStep (regmap : RegMap) (isLeader : List Bool) (pcToBb : List BasicBlockId)
    (frameSize : U16) (st : LowerState) (x : Insn × ℕ) : Rust Empty LowerState := do
  let (insn, pc) := x
  let st ← startBlock isLeader frameSize st pc
  let nodes ← lowerInsn regmap pcToBb frameSize pc insn
  pure { st with currentNodes := st.currentNodes ++ nodes }

/-- Lower a verified eBPF program with a fixed register mapping. -/
def lowerToIr (insns : List Insn) (regmap : RegMap) : Rust Empty IrProgram := do
  let isLeader ← findLeaders insns
  let pcToBb ← numberBlocks isLeader
  let frameSize ← frameSizeOf insns
  let st ← insns.zipIdx.foldlM (lowerStep regmap isLeader pcToBb frameSize) ⟨[], [], 0⟩
  let blocks := if st.currentNodes ≠ [] then st.flush else st.blocks
  pure { blocks, frameSize }

end NVMirror
