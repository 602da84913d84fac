import NVMirror.EbpfCore.Isa
import NVMirror.Library.Bytes
import NVMirror.Library.Fields
import NVMirror.Library.Simulation
import NVMirror.Library.Words

/-!
# RV64 machines

The instructions the emitter uses, with their meaning as the unprivileged ISA specification gives
it: the base instructions, `M` and the doublewords of `A`.

* `decode` reads a word by the tables of the specification; a word of any other instruction is not
  decoded.
* `Instr.effect` is what an instruction does to registers and memory on its own, `Instr.exec` what
  it does in an `Env`, which says what a called function does and what the specification leaves to
  the implementation.  `Instr.traps`: it raises an exception instead.  `Instr.displacement` is by
  how much it moves the program counter.
* `step` fetches, decodes and executes.  A `JALR` that does not link is where a run ends: the
  machine stays there.  It also stays where it is outside the code.

All of memory is there.  Loads and stores need not be aligned; atomic accesses have to be.  The
code is not part of memory.
-/

namespace NVMirror.Riscv

open Rust Bytes Fields

/-! ### States -/

/-- A register number; register 0 is always zero. -/
abbrev Reg := BitVec 5

/-- Everything except the program counter. -/
structure Cpu where
  /-- `x1` to `x31`. -/
  x : Reg → U64
  mem : U64 → U8
  /-- The address of the last load-reserved, until the next store-conditional. -/
  reserved : Option U64

structure Machine extends Cpu where
  /-- Offset of the next instruction in the code. -/
  pc : ℤ

namespace Cpu

def get (c : Cpu) (r : Reg) : U64 := if r = 0 then 0 else c.x r

def set (c : Cpu) (r : Reg) (v : U64) : Cpu :=
  if r = 0 then c else { c with x := Function.update c.x r v }

def load64 (c : Cpu) (a : U64) : U64 := loadLe 64 8 c.mem a

def store64 (c : Cpu) (a v : U64) : Cpu := { c with mem := storeLe 8 c.mem a v }

end Cpu

/-- What surrounds the code. -/
structure Env where
  /-- Address of the code. -/
  base : U64
  /-- What the function at an address does, from its first instruction to its return. -/
  call : U64 → Cpu → Cpu
  /-- Does a store-conditional fail for no reason? -/
  spurious : Bool
  /-- Is the second address in the reservation set of the first one?  Every address is in its
  own. -/
  sameSet : U64 → U64 → Bool
  /-- Is an atomic operation on memory carried out at this address, although it is not aligned? -/
  misaligned : U64 → Bool

namespace Env

/-- Functions do nothing, reservation sets are as small as can be, and no access is carried out that
is not aligned. -/
def idle : Env := ⟨0, fun _ c => c, false, fun _ _ => false, fun _ => false⟩

/-- Does a store-conditional to `a` succeed? -/
def succeeds (env : Env) (reserved : Option U64) (a : U64) : Bool :=
  !env.spurious && reserved.any fun a₀ => a₀ = a || env.sameSet a₀ a

end Env

/-! ### Instructions -/

/-- Operations on two operands. -/
inductive DataOp
  | add
  | sub
  | sll
  | srl
  | sra
  | or
  | and
  | xor
  | mul
  | divu
  | remu
  deriving DecidableEq, Repr

/-- Comparisons of the conditional branches. -/
inductive Compare
  | eq
  | ne
  | lt
  | ge
  | ltu
  | geu
  deriving DecidableEq, Repr

/-- Operations of the atomic memory instructions. -/
inductive AmoOp
  | swap
  | add
  | xor
  | or
  | and
  deriving DecidableEq, Repr

inductive Instr
  /-- On registers; with `word`, on the lower 32 bits. -/
  | op (op : DataOp) (word : Bool) (d s1 s2 : Reg)
  /-- `ADDI`, `ORI`, `ANDI` and `XORI`. -/
  | opImm (op : DataOp) (d s1 : Reg) (imm12 : BitVec 12)
  /-- `SLLI`, `SRLI` and `SRAI`. -/
  | shiftImm (op : DataOp) (d s1 : Reg) (shamt : BitVec 6)
  | lui (d : Reg) (imm20 : BitVec 20)
  /-- Of `2 ^ size` bytes. -/
  | load (size : BitVec 2) (unsigned : Bool) (d s1 : Reg) (imm12 : BitVec 12)
  | store (size : BitVec 2) (s2 s1 : Reg) (imm12 : BitVec 12)
  /-- The displacements count halfwords. -/
  | branch (cond : Compare) (s1 s2 : Reg) (imm12 : BitVec 12)
  | jal (d : Reg) (imm20 : BitVec 20)
  | jalr (d s1 : Reg) (imm12 : BitVec 12)
  | amo (op : AmoOp) (d s2 s1 : Reg)
  | loadReserved (d s1 : Reg)
  | storeConditional (d s2 s1 : Reg)
  | fence
  deriving DecidableEq, Repr

/-- `funct7` and `funct3` of an operation on registers. -/
def dataOp (funct7 : BitVec 7) (funct3 : BitVec 3) : Option DataOp :=
  if funct7 = 0 ∧ funct3 = 0 then some .add
  else if funct7 = 0b0100000 ∧ funct3 = 0 then some .sub
  else if funct7 = 0 ∧ funct3 = 1 then some .sll
  else if funct7 = 0 ∧ funct3 = 4 then some .xor
  else if funct7 = 0 ∧ funct3 = 5 then some .srl
  else if funct7 = 0b0100000 ∧ funct3 = 5 then some .sra
  else if funct7 = 0 ∧ funct3 = 6 then some .or
  else if funct7 = 0 ∧ funct3 = 7 then some .and
  else if funct7 = 1 ∧ funct3 = 0 then some .mul
  else if funct7 = 1 ∧ funct3 = 5 then some .divu
  else if funct7 = 1 ∧ funct3 = 7 then some .remu
  else none

/-- Does the operation have a form on 32 bits? -/
def DataOp.hasWord : DataOp → Bool
  | .or | .and | .xor => false
  | _ => true

/-- `funct3` of a conditional branch. -/
def compareOf (funct3 : BitVec 3) : Option Compare :=
  if funct3 = 0 then some .eq
  else if funct3 = 1 then some .ne
  else if funct3 = 4 then some .lt
  else if funct3 = 5 then some .ge
  else if funct3 = 6 then some .ltu
  else if funct3 = 7 then some .geu
  else none

/-- `funct5` of an atomic memory instruction. -/
def amoOp (funct5 : BitVec 5) : Option AmoOp :=
  if funct5 = 0b00001 then some .swap
  else if funct5 = 0b00000 then some .add
  else if funct5 = 0b00100 then some .xor
  else if funct5 = 0b01000 then some .or
  else if funct5 = 0b01100 then some .and
  else none

/-- Operations with an immediate. -/
def decodeImm (w : U32) : Option Instr :=
  let d := field w 7 5
  let s1 := field w 15 5
  let funct3 := field w 12 3
  let funct6 := field w 26 6
  if funct3 = 0 then some (.opImm .add d s1 (field w 20 12))
  else if funct3 = 4 then some (.opImm .xor d s1 (field w 20 12))
  else if funct3 = 6 then some (.opImm .or d s1 (field w 20 12))
  else if funct3 = 7 then some (.opImm .and d s1 (field w 20 12))
  else if funct3 = 1 ∧ funct6 = 0 then some (.shiftImm .sll d s1 (field w 20 6))
  else if funct3 = 5 ∧ funct6 = 0 then some (.shiftImm .srl d s1 (field w 20 6))
  else if funct3 = 5 ∧ funct6 = 0b010000 then some (.shiftImm .sra d s1 (field w 20 6))
  else none

/-- Atomics on doublewords, whatever their ordering bits. -/
def decodeAtomic (w : U32) : Option Instr :=
  let d := field w 7 5
  let s1 := field w 15 5
  let s2 := field w 20 5
  let funct5 := field w 27 5
  if field w 12 3 ≠ 3 then none
  else if funct5 = 0b00010 ∧ s2 = 0 then some (.loadReserved d s1)
  else if funct5 = 0b00011 then some (.storeConditional d s2 s1)
  else (amoOp funct5).map fun op => .amo op d s2 s1

/-- The instruction of a word. -/
def decode (w : U32) : Option Instr :=
  let opcode := field w 0 7
  let d := field w 7 5
  let funct3 := field w 12 3
  let s1 := field w 15 5
  let s2 := field w 20 5
  let funct7 := field w 25 7
  if opcode = 0x33 then (dataOp funct7 funct3).map fun op => .op op false d s1 s2
  else if opcode = 0x3B then
    ((dataOp funct7 funct3).filter DataOp.hasWord).map fun op => .op op true d s1 s2
  else if opcode = 0x13 then decodeImm w
  else if opcode = 0x37 then some (.lui d (field w 12 20))
  else if opcode = 0x03 ∧ funct3 ≠ 7 then
    some (.load (field w 12 2) (field w 14 1 = 1) d s1 (field w 20 12))
  else if opcode = 0x23 ∧ field w 14 1 = 0 then
    some (.store (field w 12 2) s2 s1 (funct7 ++ d))
  else if opcode = 0x63 then
    (compareOf funct3).map fun cond =>
      .branch cond s1 s2 (field w 31 1 ++ field w 7 1 ++ field w 25 6 ++ field w 8 4)
  else if opcode = 0x6F then
    some (.jal d (field w 31 1 ++ field w 12 8 ++ field w 20 1 ++ field w 21 10))
  else if opcode = 0x67 ∧ funct3 = 0 then some (.jalr d s1 (field w 20 12))
  else if opcode = 0x2F then decodeAtomic w
  else if opcode = 0x0F ∧ funct3 = 0 then some .fence
  else none

/-! ### Their meaning -/

def DataOp.eval {w : ℕ} (op : DataOp) (a b : BitVec w) : BitVec w :=
  match op with
  | .add => a + b
  | .sub => a - b
  | .sll => a <<< (b.toNat % w)
  | .srl => a >>> (b.toNat % w)
  | .sra => a.sshiftRight (b.toNat % w)
  | .or => a ||| b
  | .and => a &&& b
  | .xor => a ^^^ b
  | .mul => a * b
  | .divu => if b = 0 then BitVec.allOnes w else a / b
  | .remu => if b = 0 then a else a % b

def Compare.holds (cond : Compare) (a b : U64) : Bool :=
  match cond with
  | .eq => a = b
  | .ne => a ≠ b
  | .lt => a.toInt < b.toInt
  | .ge => b.toInt ≤ a.toInt
  | .ltu => a < b
  | .geu => b ≤ a

def AmoOp.eval (op : AmoOp) (old src : U64) : U64 :=
  match op with
  | .swap => src
  | .add => old + src
  | .xor => old ^^^ src
  | .or => old ||| src
  | .and => old &&& src

namespace Instr

/-- What an instruction does to registers and memory.  Control transfers and store-conditionals do
nothing here. -/
def effect (c : Cpu) : Instr → Cpu
  | .op f word d s1 s2 =>
    let a := c.get s1
    let b := c.get s2
    c.set d (if word then (f.eval (a.setWidth 32) (b.setWidth 32)).signExtend 64 else f.eval a b)
  | .opImm f d s1 imm12 => c.set d (f.eval (c.get s1) (imm12.signExtend 64))
  | .shiftImm f d s1 shamt => c.set d (f.eval (c.get s1) (shamt.setWidth 64))
  | .lui d imm20 => c.set d ((imm20 ++ (0 : BitVec 12)).signExtend 64)
  | .load size unsigned d s1 imm12 =>
    let n := 2 ^ size.toNat
    let bits := loadLe (8 * n) n c.mem (c.get s1 + imm12.signExtend 64)
    c.set d (if unsigned then bits.setWidth 64 else bits.signExtend 64)
  | .store size s2 s1 imm12 =>
    { c with mem := storeLe (2 ^ size.toNat) c.mem (c.get s1 + imm12.signExtend 64) (c.get s2) }
  | .amo f d s2 s1 =>
    let a := c.get s1
    let old := c.load64 a
    (c.store64 a (f.eval old (c.get s2))).set d old
  | .loadReserved d s1 =>
    let a := c.get s1
    { c with reserved := some a }.set d (c.load64 a)
  | .storeConditional .. | .branch .. | .jal .. | .jalr .. | .fence => c

/-- What an instruction does in its environment, at `pc`. -/
def exec (env : Env) (pc : ℤ) (c : Cpu) : Instr → Cpu
  | .jal d _ => c.set d (env.base + BitVec.ofInt 64 (pc + 4))
  | .jalr d s1 imm12 =>
    if d = 0 then c
    else env.call (c.get s1 + imm12.signExtend 64) (c.set d (env.base + BitVec.ofInt 64 (pc + 4)))
  | .storeConditional d s2 s1 =>
    let a := c.get s1
    if env.succeeds c.reserved a then { c.store64 a (c.get s2) with reserved := none }.set d 0
    else { c with reserved := none }.set d 1
  | i => i.effect c

/-- Does the instruction raise an exception, here?  Atomic accesses have to be aligned, and those of
`LR` and `SC` in every environment. -/
def traps (env : Env) (c : Cpu) : Instr → Bool
  | .amo _ _ _ s1 => !(isAligned 8 (c.get s1) || env.misaligned (c.get s1))
  | .loadReserved _ s1 | .storeConditional _ _ s1 => !isAligned 8 (c.get s1)
  | _ => false

/-- From the instruction to the next one to execute, here. -/
def displacement (c : Cpu) : Instr → ℤ
  | .branch cond s1 s2 imm12 => if cond.holds (c.get s1) (c.get s2) then 2 * imm12.toInt else 4
  | .jal _ imm20 => 2 * imm20.toInt
  | .jalr d _ _ => if d = 0 then 0 else 4
  | _ => 4

/-- Does the next instruction always follow, and is the effect the same in every environment? -/
def isStraight : Instr → Bool
  | .branch .. | .jal .. | .jalr .. | .amo .. | .loadReserved .. | .storeConditional .. => false
  | _ => true

theorem displacement_of_isStraight {i : Instr} (h : i.isStraight) (c : Cpu) :
    i.displacement c = 4 := by
  cases i with
  | branch | jal | jalr | amo | loadReserved | storeConditional => cases h
  | _ => rfl

theorem exec_of_isStraight {i : Instr} (h : i.isStraight) (env : Env) (pc : ℤ) (c : Cpu) :
    i.exec env pc c = i.effect c := by
  cases i with
  | branch | jal | jalr | amo | loadReserved | storeConditional => cases h
  | _ => rfl

theorem traps_of_isStraight {i : Instr} (h : i.isStraight) (env : Env) (c : Cpu) :
    i.traps env c = false := by
  cases i with
  | branch | jal | jalr | amo | loadReserved | storeConditional => cases h
  | _ => rfl

end Instr

/-- Execute the next instruction. -/
def step (env : Env) (code : List U8) (m : Machine) : Rust Empty Machine :=
  match fetchU32 code m.pc with
  | none => pure m
  | some w =>
    match decode w with
    | none => panic
    | some i =>
      if i.traps env m.toCpu then panic
      else pure { i.exec env m.pc m.toCpu with pc := m.pc + i.displacement m.toCpu }

/-- The machine is at a return through the link register. -/
def AtRet (code : List U8) (m : Machine) : Prop :=
  (fetchU32 code m.pc).bind decode = some (.jalr 0 1 0)

/-- Registers that a function gives back to its caller, besides the link register. -/
def calleeSaved : List Reg := [2, 8, 9, 18, 19, 20, 21, 22, 23, 24, 25, 26, 27]

/-- Called functions give these back. -/
def Env.CallsReturn (env : Env) : Prop :=
  ∀ a c, ∀ r ∈ calleeSaved, (env.call a c).x r = c.x r

end NVMirror.Riscv
