import NVMirror.EbpfCore.Isa
import NVMirror.Library.Bytes
import NVMirror.Library.Simulation

/-!
# The reference interpreter (`crates/jit-engine/src/lib.rs`, module `interpreter`)

`step` executes one instruction and returns whether the program continues; `run` steps until it
does not, or until the step limit.  `stackPtr` is the address of the stack buffer
(`self.stack.as_ptr()`).  The host is little-endian, so `to_le` only truncates.

`stepN` calls `step` a given number of times.  A state in which `step` returns `false` without
moving is a stop; calling `step` there again changes nothing.
-/

namespace NVMirror

open Rust Bytes

/-- The state of the interpreter. -/
structure InterpreterState where
  regs : BpfReg → U64
  stack : Fin stackSize → U8
  pc : ℕ
  halted : Bool

namespace InterpreterState

/-- `InterpreterState::new`. -/
def new : InterpreterState where
  regs _ := 0
  stack _ := 0
  pc := 0
  halted := false

/-- Assign one register. -/
def setReg (s : InterpreterState) (r : BpfReg) (v : U64) : InterpreterState :=
  { s with regs := Function.update s.regs r v }

end InterpreterState

variable [Profile]

/-! ### Operations -/

/-- An operation on 64 bits; division by zero gives 0. -/
def evalAlu64 (op : AluOp) (dst src : U64) : Rust Empty U64 :=
  match op with
  | .add => pure (dst + src)
  | .sub => pure (dst - src)
  | .mul => pure (dst * src)
  | .div => pure (if src = 0 then 0 else dst / src)
  | .mod => pure (if src = 0 then dst else dst % src)
  | .or => pure (dst ||| src)
  | .and => pure (dst &&& src)
  | .xor => pure (dst ^^^ src)
  | .lsh => pure (dst <<< (src &&& 63))
  | .rsh => pure (dst >>> (src &&& 63))
  | .arsh => pure (dst.sshiftRight' (src &&& 63))
  | .mov => pure src
  | .neg => negS dst

/-- An operation on 32 bits. -/
def evalAlu32 (op : AluOp) (dst src : U32) : Rust Empty U32 :=
  match op with
  | .add => pure (dst + src)
  | .sub => pure (dst - src)
  | .mul => pure (dst * src)
  | .div => pure (if src = 0 then 0 else dst / src)
  | .mod => pure (if src = 0 then dst else dst % src)
  | .or => pure (dst ||| src)
  | .and => pure (dst &&& src)
  | .xor => pure (dst ^^^ src)
  | .lsh => pure (dst <<< (src &&& 31))
  | .rsh => pure (dst >>> (src &&& 31))
  | .arsh => pure (dst.sshiftRight' (src &&& 31))
  | .mov => pure src
  | .neg => negS dst

omit [Profile] in
/-- Is the condition met? -/
def evalJmp (op : JmpOp) (a b : U64) : Bool :=
  match op with
  | .jeq => a = b
  | .jne => a ≠ b
  | .jgt => b.toNat < a.toNat
  | .jge => b.toNat ≤ a.toNat
  | .jlt => a.toNat < b.toNat
  | .jle => a.toNat ≤ b.toNat
  | .jsgt => b.toInt < a.toInt
  | .jsge => b.toInt ≤ a.toInt
  | .jslt => a.toInt < b.toInt
  | .jsle => a.toInt ≤ b.toInt
  | .jset => a &&& b ≠ 0
  | .ja => true

omit [Profile] in
/-- A byte-order conversion on a little-endian host. -/
def evalEndian (toBe : Bool) (width : EndianWidth) (val : U64) : U64 :=
  if toBe then
    match width with
    | .bits16 => (swapBytes 2 (val.setWidth 16)).setWidth 64
    | .bits32 => (swapBytes 4 (val.setWidth 32)).setWidth 64
    | .bits64 => swapBytes 8 val
  else
    match width with
    | .bits16 => (val.setWidth 16).setWidth 64
    | .bits32 => (val.setWidth 32).setWidth 64
    | .bits64 => val

/-! ### The stack -/

omit [Profile] in
/-- `stack[i]`. -/
def stackAt (stack : Fin stackSize → U8) (i : ℕ) : Rust Empty U8 :=
  if h : i < stackSize then pure (stack ⟨i, h⟩) else panic

/-- Read `width` bytes at `offset`; an access past the end reads 0. -/
def readStack (stack : Fin stackSize → U8) (offset : U64) (width : MemWidth) :
    Rust Empty U64 := do
  let stop ← addU offset (BitVec.ofNat 64 width.byteLen)
  if stackSize < stop.toNat then pure 0
  else if stackSize < offset.toNat then panic
  else
    let bytes ← (List.range width.byteLen).mapM fun i => stackAt stack (offset.toNat + i)
    pure (ofLeBytes 64 bytes)

/-- Write the low `width` bytes of `val` at `offset`; an access past the end is dropped. -/
def writeStack (stack : Fin stackSize → U8) (offset : U64) (width : MemWidth) (val : U64) :
    Rust Empty (Fin stackSize → U8) := do
  let stop ← addU offset (BitVec.ofNat 64 width.byteLen)
  if stackSize < stop.toNat then pure stack
  else if stackSize < offset.toNat + width.byteLen then panic
  else
    pure fun j =>
      if offset.toNat ≤ j ∧ j < offset.toNat + width.byteLen then byteAt val (j - offset.toNat)
      else stack j

/-- Index into the stack buffer of the address `base + off`. -/
def stackRel (stackPtr base : U64) (off : I16) : Rust Empty U64 := do
  let addr ← addS base (off.signExtend 64)
  let stackBase ← addU stackPtr (BitVec.ofNat 64 stackSize)
  pure (addr - (stackBase - BitVec.ofNat 64 stackSize))

/-! ### Stepping -/

omit [Profile] in
/-- The value of a second operand. -/
def resolveSource (regs : BpfReg → U64) : Source → U64
  | .imm v => v
  | .reg r => regs r

omit [Profile] in
/-- `self.pc += 1` -/
def advance (s : InterpreterState) : Rust Empty (InterpreterState × Bool) := do
  let pc ← usizeAdd s.pc 1
  pure ({ s with pc }, true)

omit [Profile] in
/-- Go to `pc + 1 + off` if the condition holds, else fall through. -/
def branch (s : InterpreterState) (taken : Bool) (off : I16) :
    Rust Empty (InterpreterState × Bool) :=
  if taken then do
    let pc ← jumpPc s.pc off
    pure ({ s with pc }, true)
  else
    advance s

/-- The `match` of `step`. -/
def stepInsn (stackPtr : U64) (s : InterpreterState) :
    Insn → Rust Empty (InterpreterState × Bool)
  | .alu64 op dst src => do
    let v ← evalAlu64 op (s.regs dst) (resolveSource s.regs src)
    advance (s.setReg dst v)
  | .alu32 op dst src => do
    let v ← evalAlu32 op ((s.regs dst).setWidth 32) ((resolveSource s.regs src).setWidth 32)
    advance (s.setReg dst (v.setWidth 64))
  | .loadImm64 dst imm => advance (s.setReg dst imm)
  | .load width dst src off => do
    let rel ← stackRel stackPtr (s.regs src) off
    let val ← readStack s.stack rel width
    advance (s.setReg dst val)
  | .storeReg width dst src off => do
    let rel ← stackRel stackPtr (s.regs dst) off
    let stack ← writeStack s.stack rel width (s.regs src)
    advance { s with stack }
  | .storeImm width dst off imm => do
    let rel ← stackRel stackPtr (s.regs dst) off
    let stack ← writeStack s.stack rel width (imm.signExtend 64)
    advance { s with stack }
  | .ja off => branch s true off
  | .jmpCond op dst src off =>
    branch s (evalJmp op (s.regs dst) (resolveSource s.regs src)) off
  | .jmpCond32 op dst src off =>
    branch s (evalJmp op (((s.regs dst).setWidth 32).setWidth 64)
      (((resolveSource s.regs src).setWidth 32).setWidth 64)) off
  -- stub: calls are no-ops that set R0 = 0
  | .call _ => advance (s.setReg BpfReg.r0 0)
  | .exit | .tailCall => pure ({ s with halted := true }, false)
  -- simplified: treated as a no-op
  | .atomic .. => advance s
  | .endian toBe width dst => advance (s.setReg dst (evalEndian toBe width (s.regs dst)))

/-- Execute one instruction; `true` if the program should continue. -/
def step (stackPtr : U64) (insns : List Insn) (s : InterpreterState) :
    Rust Empty (InterpreterState × Bool) :=
  if s.halted ∨ insns.length ≤ s.pc then pure (s, false)
  else do
    let insn ← index insns s.pc
    stepInsn stackPtr s insn

/-- The loop of `run`. -/
def runLoop (stackPtr : U64) (insns : List Insn) :
    ℕ → InterpreterState → Rust Empty InterpreterState
  | 0, s => pure s
  | k + 1, s => do
    let (s, continues) ← step stackPtr insns s
    if continues then runLoop stackPtr insns k s else pure s

/-- Run until exit or step limit; returns `R0`. -/
def run (stackPtr : U64) (insns : List Insn) (maxSteps : ℕ) (s : InterpreterState) :
    Rust Empty (U64 × InterpreterState) := do
  let s ← runLoop stackPtr insns maxSteps s
  pure (s.regs BpfReg.r0, s)

/-- The state after a call of `step`. -/
def stepState (stackPtr : U64) (insns : List Insn) (s : InterpreterState) :
    Rust Empty InterpreterState := do
  let (s, _) ← step stackPtr insns s
  pure s

/-- `k` calls of `step`. -/
abbrev stepN (stackPtr : U64) (insns : List Insn) (s : InterpreterState) :
    ℕ → Rust Empty InterpreterState :=
  steps (stepState stackPtr insns) s

end NVMirror
