import NVMirror.JitIr.Ir
import NVMirror.Library.Words

/-!
# Code emitters (`crates/jit-ir/src/lib.rs`, trait `CodeEmitter`)

What the emitters of both targets share: the output buffer, the offsets of the blocks and the
list of branches to patch (`Emitter`), the loop over the program (`emitProgram`) and the loop over
the relocations (`patchRelocations`).  The targets differ in the words of a node and in how a
branch is patched.

A function of the source that does nothing but emit words is modelled by the list of these words
(`emitWords`).  The capacity a buffer is created with has no effect and is left out.
-/

namespace NVMirror

open Rust Bytes

/-- A branch to patch; `kind` says how. -/
structure Relocation (κ : Type) where
  /-- Offset of the branch in the buffer. -/
  offset : ℕ
  target : BasicBlockId
  kind : κ

/-- The state of an emitter. -/
structure Emitter (κ : Type) where
  buf : List U8
  /-- Offset of each block in the buffer. -/
  bbOffsets : List (Option ℕ)
  relocations : List (Relocation κ)

namespace Emitter

variable {κ ε : Type}

/-- Nothing is emitted yet. -/
def new : Emitter κ := ⟨[], [], []⟩

/-- Emit a word, in little-endian order. -/
def emit32 (e : Emitter κ) (insn : U32) : Emitter κ := { e with buf := e.buf ++ leBytes 4 insn }

/-- Emit words one after the other. -/
def emitWords (e : Emitter κ) (ws : List U32) : Emitter κ := ws.foldl emit32 e

/-- Offset of the next word. -/
def currentOffset (e : Emitter κ) : ℕ := e.buf.length

/-- Record a branch at the given offset. -/
def pushRelocation (e : Emitter κ) (offset : ℕ) (target : BasicBlockId) (kind : κ) : Emitter κ :=
  { e with relocations := e.relocations ++ [⟨offset, target, kind⟩] }

/-- Make room for the offset of a block. -/
def ensureBbMap (e : Emitter κ) (bb : BasicBlockId) : Emitter κ :=
  let idx := bb.id.toNat
  if e.bbOffsets.length ≤ idx then
    { e with bbOffsets := e.bbOffsets ++ List.replicate (idx + 1 - e.bbOffsets.length) none }
  else e

/-- The `Label` arm of `emit_node`. -/
def emitLabel (e : Emitter κ) (bb : BasicBlockId) : Rust ε (Emitter κ) := do
  let e := e.ensureBbMap bb
  let bbOffsets ← setAt e.bbOffsets bb.id.toNat (some e.currentOffset)
  pure { e with bbOffsets }

/-- `emit_program`: the nodes of each block, after its label. -/
def emitProgram (emitNode : Emitter κ → IrNode → Rust ε (Emitter κ)) (e : Emitter κ)
    (program : IrProgram) : Rust ε (Emitter κ) :=
  program.blocks.foldlM (fun e block => do
    let e ← emitNode e (.label block.id)
    block.nodes.foldlM emitNode e) e

/-- Loop body of `finalize`.  `patch` gives the patched word for the displacement, unless that is
out of range. -/
def patchRelocation (outOfRange : BasicBlockId → ε) (patch : κ → ℤ → Option (U32 → U32))
    (bbOffsets : List (Option ℕ)) (buf : List U8) (reloc : Relocation κ) :
    Rust ε (List U8) := do
  let targetOffset ← okOr (bbOffsets[reloc.target.id.toNat]?.join) (outOfRange reloc.target)
  let target ← toIsize targetOffset
  let offset ← toIsize reloc.offset
  let branchOffset ← isizeSub target offset
  let patchWord ← okOr (patch reloc.kind branchOffset) (outOfRange reloc.target)
  let existing ← readU32 buf reloc.offset
  writeU32 buf reloc.offset (patchWord existing)

/-- `finalize`. -/
def patchRelocations (outOfRange : BasicBlockId → ε) (patch : κ → ℤ → Option (U32 → U32))
    (e : Emitter κ) : Rust ε (List U8) :=
  e.relocations.foldlM (patchRelocation outOfRange patch e.bbOffsets) e.buf

/-- `calculate_size`: an upper bound on the size of the code, in bytes. -/
def calculateSize (maxExpansionRatio : ℕ) (program : IrProgram) : ℕ :=
  let count := program.blocks.foldl
    (fun count block => count + 1 + block.nodes.length * maxExpansionRatio) 0
  count * 4

end Emitter

end NVMirror
