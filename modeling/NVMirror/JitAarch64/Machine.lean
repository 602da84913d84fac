import NVMirror.EbpfCore.Isa
import NVMirror.Library.Bytes
import NVMirror.Library.Simulation
import NVMirror.Library.Words

/-!
# A64 machines

The instructions the emitter uses for programs on registers, with their meaning as the Arm
architecture reference manual gives it.

* `decode` reads a word by the tables of the manual; a word of any other instruction is not
  decoded.  Of the shifted-register forms only those without a shift are.
* `Instr.exec` is what an instruction does to registers, flags and memory, `Instr.displacement`
  by how much it moves the program counter.
* `step` fetches, decodes and executes.  `RET` is where a run ends: the machine stays there.  It
  also stays where it is outside the code.

All of memory is there, and accesses need not be aligned.  The code is not part of memory.
-/

namespace NVMirror.Aarch64

open Rust Bytes

/-! ### States -/

/-- A register number; 31 is the stack pointer or the zero register. -/
abbrev Reg := BitVec 5

/-- The condition flags. -/
structure Flags where
  n : Bool
  z : Bool
  c : Bool
  v : Bool
  deriving DecidableEq, Repr

/-- Everything except the program counter. -/
structure Cpu where
  /-- `X0` to `X30`, and the stack pointer at 31. -/
  x : Reg → U64
  flags : Flags
  mem : U64 → U8

structure Machine extends Cpu where
  /-- Offset of the next instruction in the code. -/
  pc : ℤ

/-- The size of the operands: `sf` chooses between 32 and 64 bits. -/
def width : Bool → ℕ
  | true => 64
  | false => 32

namespace Cpu

/-- A register operand, 31 being the zero register. -/
def get (c : Cpu) (sf : Bool) (r : Reg) : BitVec (width sf) :=
  (if r = 31 then 0 else c.x r).setWidth (width sf)

/-- Write a register, 31 being the stack pointer. -/
def setSp (c : Cpu) (r : Reg) (v : U64) : Cpu := { c with x := Function.update c.x r v }

/-- Write a register, 31 being the zero register. -/
def set (c : Cpu) (r : Reg) (v : U64) : Cpu := if r = 31 then c else c.setSp r v

def load64 (c : Cpu) (a : U64) : U64 := loadLe 64 8 c.mem a

def store64 (c : Cpu) (a v : U64) : Cpu := { c with mem := storeLe 8 c.mem a v }

end Cpu

/-! ### Instructions -/

/-- Operations on two registers. -/
inductive DataOp
  | add
  | sub
  | subs
  | and
  | orr
  | eor
  | udiv
  | lslv
  | lsrv
  | asrv
  deriving DecidableEq, Repr

/-- Addressing modes of the pair instructions. -/
inductive PairMode
  | postIndex
  | offset
  | preIndex
  deriving DecidableEq, Repr

inductive Instr
  | data (op : DataOp) (sf : Bool) (d n m : Reg)
  /-- `MADD` and `MSUB`. -/
  | multiply (sub sf : Bool) (d n m a : Reg)
  /-- `ADD` and `SUB` with an immediate. -/
  | addImm (sub sf : Bool) (d n : Reg) (imm12 : BitVec 12)
  /-- `MOVZ` and, with `keep`, `MOVK`. -/
  | movWide (keep sf : Bool) (d : Reg) (imm16 : U16) (hw : BitVec 2)
  /-- `UBFM` and `SBFM` on 64 bits. -/
  | bitfield (signed : Bool) (d n : Reg) (immr imms : BitVec 6)
  /-- `LDR` and `STR` of 64 bits, with an unsigned offset. -/
  | loadStore (load : Bool) (t n : Reg) (imm12 : BitVec 12)
  /-- `LDP` and `STP` of 64 bits. -/
  | pair (mode : PairMode) (load : Bool) (t1 t2 n : Reg) (imm7 : BitVec 7)
  | bCond (cond : BitVec 4) (imm19 : BitVec 19)
  | b (imm26 : BitVec 26)
  | ret (n : Reg)
  deriving DecidableEq, Repr

/-- The `len` bits of a word from bit `lo` on. -/
def field (w : U32) (lo len : ℕ) : BitVec len := w.extractLsb' lo len

/-- Bits 30 to 21 and 15 to 10 of an operation on two registers. -/
def dataOp (hi : BitVec 10) (mid : BitVec 6) : Option DataOp :=
  if hi = 0b0001011000 ∧ mid = 0 then some .add
  else if hi = 0b1001011000 ∧ mid = 0 then some .sub
  else if hi = 0b1101011000 ∧ mid = 0 then some .subs
  else if hi = 0b0001010000 ∧ mid = 0 then some .and
  else if hi = 0b0101010000 ∧ mid = 0 then some .orr
  else if hi = 0b1001010000 ∧ mid = 0 then some .eor
  else if hi = 0b0011010110 ∧ mid = 0b000010 then some .udiv
  else if hi = 0b0011010110 ∧ mid = 0b001000 then some .lslv
  else if hi = 0b0011010110 ∧ mid = 0b001001 then some .lsrv
  else if hi = 0b0011010110 ∧ mid = 0b001010 then some .asrv
  else none

/-- Data processing, registers. -/
def decodeData (w : U32) : Option Instr :=
  let sf := field w 31 1 = 1
  if field w 21 10 = 0b0011011000 then
    some (.multiply (field w 15 1 = 1) sf (field w 0 5) (field w 5 5) (field w 16 5) (field w 10 5))
  else
    (dataOp (field w 21 10) (field w 10 6)).map fun op =>
      .data op sf (field w 0 5) (field w 5 5) (field w 16 5)

/-- Data processing, immediates. -/
def decodeImm (w : U32) : Option Instr :=
  let sf := field w 31 1 = 1
  if field w 22 9 = 0b001000100 ∨ field w 22 9 = 0b101000100 then
    some (.addImm (field w 30 1 = 1) sf (field w 0 5) (field w 5 5) (field w 10 12))
  else if (field w 23 8 = 0b10100101 ∨ field w 23 8 = 0b11100101) ∧ (sf ∨ field w 22 1 = 0) then
    some (.movWide (field w 29 1 = 1) sf (field w 0 5) (field w 5 16) (field w 21 2))
  else if field w 22 10 = 0b1001001101 ∨ field w 22 10 = 0b1101001101 then
    some (.bitfield (field w 30 1 = 0) (field w 0 5) (field w 5 5) (field w 16 6) (field w 10 6))
  else none

/-- Branches. -/
def decodeBranch (w : U32) : Option Instr :=
  if field w 26 6 = 0b000101 then some (.b (field w 0 26))
  else if field w 24 8 = 0b01010100 ∧ field w 4 1 = 0 then
    some (.bCond (field w 0 4) (field w 5 19))
  else if field w 10 22 = 0b1101011001011111000000 ∧ field w 0 5 = 0 then some (.ret (field w 5 5))
  else none

/-- Loads and stores. -/
def decodeLoadStore (w : U32) : Option Instr :=
  let pair (mode : PairMode) : Option Instr :=
    some (.pair mode (field w 22 1 = 1) (field w 0 5) (field w 10 5) (field w 5 5) (field w 15 7))
  if field w 22 10 = 0b1111100100 ∨ field w 22 10 = 0b1111100101 then
    some (.loadStore (field w 22 1 = 1) (field w 0 5) (field w 5 5) (field w 10 12))
  else if field w 23 9 = 0b101010001 then pair .postIndex
  else if field w 23 9 = 0b101010010 then pair .offset
  else if field w 23 9 = 0b101010011 then pair .preIndex
  else none

/-- The instruction of a word. -/
def decode (w : U32) : Option Instr :=
  if field w 26 3 = 0b100 then decodeImm w
  else if field w 26 3 = 0b101 then decodeBranch w
  else if field w 25 3 = 0b101 then decodeData w
  else if field w 27 1 = 1 ∧ field w 25 1 = 0 then decodeLoadStore w
  else none

/-! ### Their meaning -/

/-- `x + y`, with a carry, and the flags of the sum. -/
def addWithCarry {w : ℕ} (x y : BitVec w) (carryIn : Bool) : BitVec w × Flags :=
  let unsignedSum := x.toNat + y.toNat + carryIn.toNat
  let signedSum := x.toInt + y.toInt + carryIn.toNat
  let result := BitVec.ofNat w unsignedSum
  (result,
    { n := result.msb
      z := result = 0
      c := result.toNat ≠ unsignedSum
      v := result.toInt ≠ signedSum })

def DataOp.eval {w : ℕ} (op : DataOp) (a b : BitVec w) : BitVec w :=
  match op with
  | .add => (addWithCarry a b false).1
  | .sub | .subs => (addWithCarry a (~~~b) true).1
  | .and => a &&& b
  | .orr => a ||| b
  | .eor => a ^^^ b
  | .udiv => if b = 0 then 0 else a / b
  | .lslv => a <<< (b.toNat % w)
  | .lsrv => a >>> (b.toNat % w)
  | .asrv => a.sshiftRight (b.toNat % w)

/-- The flags an operation sets. -/
def DataOp.setFlags {w : ℕ} (op : DataOp) (a b : BitVec w) (flags : Flags) : Flags :=
  match op with
  | .subs => (addWithCarry a (~~~b) true).2
  | _ => flags

/-- Does a condition hold? -/
def conditionHolds (cond : BitVec 4) (f : Flags) : Bool :=
  let base :=
    match (cond >>> 1).toNat with
    | 0 => f.z
    | 1 => f.c
    | 2 => f.n
    | 3 => f.v
    | 4 => f.c && !f.z
    | 5 => f.n == f.v
    | 6 => f.n == f.v && !f.z
    | _ => true
  if cond.getLsbD 0 && cond ≠ 0b1111 then !base else base

/-- Extend a value to 64 bits. -/
def extendBits {len : ℕ} (signed : Bool) (bits : BitVec len) : U64 :=
  if signed then bits.signExtend 64 else bits.setWidth 64

/-- Bits `immr` to `imms` go to the bottom or, if `imms` is the smaller one, the bits up to `imms`
go to the top. -/
def bitfieldMove (signed : Bool) (src : U64) (immr imms : ℕ) : U64 :=
  if immr ≤ imms then extendBits signed (src.extractLsb' immr (imms - immr + 1))
  else extendBits signed (src.extractLsb' 0 (imms + 1)) <<< (64 - immr)

/-- Replace the 16 bits at `pos`. -/
def insert16 {w : ℕ} (old : BitVec w) (imm16 : U16) (pos : ℕ) : BitVec w :=
  (old &&& ~~~((0xFFFF#16).setWidth w <<< pos)) ||| (imm16.setWidth w <<< pos)

namespace Instr

/-- Load or store two registers at an address. -/
def execPair (c : Cpu) (load : Bool) (t1 t2 : Reg) (address : U64) : Cpu :=
  if load then
    (c.set t1 (c.load64 address)).set t2 (c.load64 (address + 8))
  else
    (c.store64 address (c.get true t1)).store64 (address + 8) (c.get true t2)

/-- What an instruction does to registers, flags and memory. -/
def exec (c : Cpu) : Instr → Cpu
  | .data op sf d n m =>
    let a := c.get sf n
    let b := c.get sf m
    { c with flags := op.setFlags a b c.flags }.set d ((op.eval a b).setWidth 64)
  | .multiply sub sf d n m a =>
    let product := c.get sf n * c.get sf m
    c.set d ((if sub then c.get sf a - product else c.get sf a + product).setWidth 64)
  | .addImm sub sf d n imm12 =>
    let a := (c.x n).setWidth (width sf)
    let b := imm12.setWidth (width sf)
    c.setSp d ((if sub then a - b else a + b).setWidth 64)
  | .movWide keep sf d imm16 hw =>
    let old := if keep then c.get sf d else 0
    c.set d ((insert16 old imm16 (16 * hw.toNat)).setWidth 64)
  | .bitfield signed d n immr imms =>
    c.set d (bitfieldMove signed (c.get true n) immr.toNat imms.toNat)
  | .loadStore load t n imm12 =>
    let address := c.x n + imm12.setWidth 64 * 8
    if load then c.set t (c.load64 address) else c.store64 address (c.get true t)
  | .pair mode load t1 t2 n imm7 =>
    let base := c.x n
    let moved := base + imm7.signExtend 64 * 8
    match mode with
    | .postIndex => (execPair c load t1 t2 base).setSp n moved
    | .offset => execPair c load t1 t2 moved
    | .preIndex => (execPair c load t1 t2 moved).setSp n moved
  | .bCond .. | .b .. | .ret .. => c

/-- From the instruction to the next one to execute. -/
def displacement (c : Cpu) : Instr → ℤ
  | .bCond cond imm19 => if conditionHolds cond c.flags then 4 * imm19.toInt else 4
  | .b imm26 => 4 * imm26.toInt
  | .ret _ => 0
  | _ => 4

/-- Does the next instruction always follow? -/
def isStraight : Instr → Bool
  | .bCond .. | .b .. | .ret .. => false
  | _ => true

theorem displacement_of_isStraight {i : Instr} (h : i.isStraight) (c : Cpu) :
    i.displacement c = 4 := by
  cases i with
  | bCond | b | ret => cases h
  | _ => rfl

end Instr

/-- Execute the next instruction. -/
def step (code : List U8) (m : Machine) : Rust Empty Machine :=
  match fetchU32 code m.pc with
  | none => pure m
  | some w =>
    match decode w with
    | none => panic
    | some i => pure { i.exec m.toCpu with pc := m.pc + i.displacement m.toCpu }

/-- The machine is at a `RET` to the link register. -/
def AtRet (code : List U8) (m : Machine) : Prop :=
  (fetchU32 code m.pc).bind decode = some (.ret 30)

end NVMirror.Aarch64
