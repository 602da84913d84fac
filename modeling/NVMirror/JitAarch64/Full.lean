import NVMirror.JitAarch64.Machine

/-!
# A64 machines with memory instructions and calls

The machine for all nodes: to the instructions of `decode` come loads and stores of all sizes,
atomics, barriers, byte reversal, a mask, and calls.

* `Full.decode` gives a word the meaning `decode` gives it, if any.  A load or store with an
  unsigned offset is read whatever stands in its size and opcode, so that a store whose offset
  reaches into the opcode is what the manual says it is.
* `Full.Instr.exec` is what an instruction does in an `Env`, which says what a called function does.
* `Full.Instr.traps`: it has an alignment fault instead.  Atomic accesses have to be aligned, where
  the environment does not carry them out all the same (`FEAT_LSE2`).
-/

namespace NVMirror.Aarch64.Full

open Rust Bytes

/-- What surrounds the code. -/
structure Env where
  /-- Address of the code. -/
  base : U64
  /-- What the function at an address does, from its first instruction to its return. -/
  call : U64 → Cpu → Cpu
  /-- Is an atomic access carried out at this address, although it is not aligned? -/
  misaligned : U64 → Bool

/-- Functions do nothing, and no access is carried out that is not aligned. -/
def Env.idle : Env := ⟨0, fun _ c => c, fun _ => false⟩

/-! ### Instructions -/

/-- What a load or store does with the bytes. -/
inductive Transfer
  | store
  | load
  /-- To 64 bits. -/
  | loadSigned
  /-- To 32 bits; the upper ones become 0. -/
  | loadSigned32
  | prefetch
  deriving DecidableEq, Repr

/-- Operations of the atomic memory instructions. -/
inductive AtomicFn
  | add
  | clr
  | eor
  | set
  | swp
  deriving DecidableEq, Repr

/-- Byte reversals. -/
inductive RevOp
  | rev16W
  | revW
  | revX
  deriving DecidableEq, Repr

inductive Instr
  /-- An instruction of `decode`. -/
  | base (i : Aarch64.Instr)
  /-- Of `2 ^ size` bytes, with an unsigned offset. -/
  | loadStore (kind : Transfer) (size : BitVec 2) (t n : Reg) (imm12 : BitVec 12)
  /-- `LDADD`, `LDCLR`, `LDEOR`, `LDSET` and `SWP` of 64 bits. -/
  | atomic (fn : AtomicFn) (s t n : Reg)
  /-- `CAS` of 64 bits. -/
  | cas (s t n : Reg)
  | barrier
  | rev (op : RevOp) (d n : Reg)
  /-- `AND` with a run of ones, rotated. -/
  | andImm (d n : Reg) (immr imms : BitVec 6)
  | blr (n : Reg)
  deriving DecidableEq, Repr

/-- The opcode of a load or store of `2 ^ size` bytes. -/
def transfer (size opc : BitVec 2) : Option Transfer :=
  if opc = 0 then some .store
  else if opc = 1 then some .load
  else if opc = 2 then if size = 3 then some .prefetch else some .loadSigned
  else if size = 0 ∨ size = 1 then some .loadSigned32
  else none

/-- `o3` and `opc` of an atomic memory instruction. -/
def atomicFn (o3 : BitVec 1) (opc : BitVec 3) : Option AtomicFn :=
  if o3 = 0 ∧ opc = 0 then some .add
  else if o3 = 0 ∧ opc = 1 then some .clr
  else if o3 = 0 ∧ opc = 2 then some .eor
  else if o3 = 0 ∧ opc = 3 then some .set
  else if o3 = 1 ∧ opc = 0 then some .swp
  else none

/-- Bits 31 to 21 and 15 to 10 of a byte reversal. -/
def revOp (hi : BitVec 11) (opcode : BitVec 6) : Option RevOp :=
  if hi = 0b01011010110 ∧ opcode = 1 then some .rev16W
  else if hi = 0b01011010110 ∧ opcode = 2 then some .revW
  else if hi = 0b11011010110 ∧ opcode = 3 then some .revX
  else none

/-- The instructions that come to those of `decode`. -/
def decodeMore (w : U32) : Option Instr :=
  let d := field w 0 5
  let n := field w 5 5
  let m := field w 16 5
  if field w 24 6 = 0b111001 then
    (transfer (field w 30 2) (field w 22 2)).map fun kind =>
      .loadStore kind (field w 30 2) d n (field w 10 12)
  else if field w 24 8 = 0b11111000 ∧ field w 21 1 = 1 ∧ field w 10 2 = 0 then
    (atomicFn (field w 15 1) (field w 12 3)).map fun fn => .atomic fn m d n
  else if field w 23 9 = 0b110010001 ∧ field w 21 1 = 1 ∧ field w 10 5 = 31 then some (.cas m d n)
  else if field w 12 20 = 0xD5033 ∧ field w 0 8 = 0b10111111 then some .barrier
  else if field w 22 10 = 0b1001001001 ∧ field w 10 6 ≠ 63 then
    some (.andImm d n (field w 16 6) (field w 10 6))
  else if field w 10 22 = 0b1101011000111111000000 ∧ field w 0 5 = 0 then some (.blr n)
  else if m = 0 then (revOp (field w 21 11) (field w 10 6)).map fun op => .rev op d n
  else none

/-- The instruction of a word. -/
def decode (w : U32) : Option Instr :=
  match Aarch64.decode w with
  | some i => some (.base i)
  | none => decodeMore w

/-! ### Their meaning -/

def AtomicFn.eval (fn : AtomicFn) (old src : U64) : U64 :=
  match fn with
  | .add => old + src
  | .clr => old &&& ~~~src
  | .eor => old ^^^ src
  | .set => old ||| src
  | .swp => src

def RevOp.eval (op : RevOp) (v : U64) : U64 :=
  match op with
  | .rev16W => (swapBytes 2 (v.extractLsb' 16 16) ++ swapBytes 2 (v.extractLsb' 0 16)).setWidth 64
  | .revW => (swapBytes 4 (v.setWidth 32)).setWidth 64
  | .revX => swapBytes 8 v

namespace Instr

/-- What a load or store does. -/
def execTransfer (c : Cpu) (kind : Transfer) (n : ℕ) (t : Reg) (address : U64) : Cpu :=
  let bits := loadLe (8 * n) n c.mem address
  match kind with
  | .store => { c with mem := storeLe n c.mem address (c.get true t) }
  | .load => c.set t (bits.setWidth 64)
  | .loadSigned => c.set t (bits.signExtend 64)
  | .loadSigned32 => c.set t ((bits.signExtend 32).setWidth 64)
  | .prefetch => c

/-- What an instruction does in its environment, at `pc`. -/
def exec (env : Env) (pc : ℤ) (c : Cpu) : Instr → Cpu
  | .base i => i.exec c
  | .loadStore kind size t n imm12 =>
    execTransfer c kind (2 ^ size.toNat) t (c.x n + imm12.setWidth 64 <<< size.toNat)
  | .atomic fn s t n =>
    let old := c.load64 (c.x n)
    (c.store64 (c.x n) (fn.eval old (c.get true s))).set t old
  | .cas s t n =>
    let old := c.load64 (c.x n)
    let expected : U64 := c.get true s
    (if old = expected then c.store64 (c.x n) (c.get true t) else c).set s old
  | .barrier => c
  | .rev op d n => c.set d (op.eval (c.get true n))
  | .andImm d n immr imms =>
    let a : U64 := c.get true n
    c.setSp d (a &&& (BitVec.allOnes 64 >>> (63 - imms.toNat)).rotateRight immr.toNat)
  | .blr n => env.call (c.get true n) (c.set 30 (env.base + BitVec.ofInt 64 (pc + 4)))

/-- Does the instruction have an alignment fault, here? -/
def traps (env : Env) (c : Cpu) : Instr → Bool
  | .atomic _ _ _ n | .cas _ _ n => !(isAligned 8 (c.x n) || env.misaligned (c.x n))
  | _ => false

/-- Does the instruction load a register, by the addressing mode with an unsigned offset? -/
def loads : Instr → Bool
  | .base (.loadStore load ..) => load
  | .loadStore kind .. => kind ≠ .store ∧ kind ≠ .prefetch
  | _ => false

/-- From the instruction to the next one to execute, here. -/
def displacement (c : Cpu) : Instr → ℤ
  | .base i => i.displacement c
  | _ => 4

end Instr

/-- Execute the next instruction. -/
def step (env : Env) (code : List U8) (m : Machine) : Rust Empty Machine :=
  match fetchU32 code m.pc with
  | none => pure m
  | some w =>
    match decode w with
    | none => panic
    | some i =>
      if i.traps env m.toCpu then panic
      else pure { i.exec env m.pc m.toCpu with pc := m.pc + i.displacement m.toCpu }

/-- A step in one of the environments of `E`. -/
def Moves (E : Env → Prop) (code : List U8) (m m' : Machine) : Prop :=
  ∃ env, E env ∧ step env code m = .ok m'

/-- Registers that a function gives back: `X19` to `X29` and the stack pointer. -/
def calleeSaved : List Reg := [19, 20, 21, 22, 23, 24, 25, 26, 27, 28, 29, 31]

/-- Called functions give these back. -/
def Env.CallsReturn (env : Env) : Prop :=
  ∀ a c, ∀ r ∈ calleeSaved, (env.call a c).x r = c.x r

end NVMirror.Aarch64.Full
