import NVMirror.Library.Checked

/-!
# eBPF instruction set (`crates/ebpf-core/src/isa.rs`)

The opcode constants, the operand types and the typed instructions `Insn`, as the decoder
produces them from the wire format `RawInsn`.

The fixed-width integers of the source are `BitVec`s; a signed one is read through `toInt`.
`BpfReg` is `Fin 11`, so a register outside `R0..R10` cannot be written down.
-/

namespace NVMirror

abbrev U8 := BitVec 8
abbrev U16 := BitVec 16
abbrev U32 := BitVec 32
abbrev U64 := BitVec 64
abbrev I16 := BitVec 16
abbrev I32 := BitVec 32
abbrev I64 := BitVec 64

/-- Maximum number of instructions per program. -/
def maxInsns : ℕ := 1000000

/-- eBPF stack size in bytes. -/
def stackSize : ℕ := 512

/-- Number of eBPF registers. -/
def numRegs : ℕ := 11

/-! ### Opcodes -/

def bpfLd : U8 := 0x00
def bpfLdx : U8 := 0x01
def bpfSt : U8 := 0x02
def bpfStx : U8 := 0x03
def bpfAlu : U8 := 0x04
def bpfJmp : U8 := 0x05
def bpfJmp32 : U8 := 0x06
def bpfAlu64 : U8 := 0x07

def bpfAdd : U8 := 0x00
def bpfSub : U8 := 0x10
def bpfMul : U8 := 0x20
def bpfDiv : U8 := 0x30
def bpfOr : U8 := 0x40
def bpfAnd : U8 := 0x50
def bpfLsh : U8 := 0x60
def bpfRsh : U8 := 0x70
def bpfNeg : U8 := 0x80
def bpfMod : U8 := 0x90
def bpfXor : U8 := 0xa0
def bpfMov : U8 := 0xb0
def bpfArsh : U8 := 0xc0
def bpfEnd : U8 := 0xd0

def bpfJa : U8 := 0x00
def bpfJeq : U8 := 0x10
def bpfJgt : U8 := 0x20
def bpfJge : U8 := 0x30
def bpfJset : U8 := 0x40
def bpfJne : U8 := 0x50
def bpfJsgt : U8 := 0x60
def bpfJsge : U8 := 0x70
def bpfCall : U8 := 0x80
def bpfExit : U8 := 0x90
def bpfJlt : U8 := 0xa0
def bpfJle : U8 := 0xb0
def bpfJslt : U8 := 0xc0
def bpfJsle : U8 := 0xd0

/-- Source modifier bit: immediate operand. -/
def bpfK : U8 := 0x00

/-- Source modifier bit: register operand. -/
def bpfX : U8 := 0x08

def bpfW : U8 := 0x00
def bpfH : U8 := 0x08
def bpfB : U8 := 0x10
def bpfDw : U8 := 0x18

def bpfImm : U8 := 0x00
def bpfMem : U8 := 0x60
def bpfAtomic : U8 := 0xc0

def bpfAtomicAdd : U32 := 0x00
def bpfAtomicOr : U32 := 0x40
def bpfAtomicAnd : U32 := 0x50
def bpfAtomicXor : U32 := 0xa0
def bpfAtomicXchg : U32 := 0xe0 ||| 0x01
def bpfAtomicCmpxchg : U32 := 0xf0 ||| 0x01
def bpfAtomicFetch : U32 := 0x01

/-! ### Operands -/

/-- A register `R0..R10`. -/
abbrev BpfReg := Fin numRegs

namespace BpfReg

def r0 : BpfReg := ⟨0, by decide⟩
def r1 : BpfReg := ⟨1, by decide⟩
def r2 : BpfReg := ⟨2, by decide⟩
def r3 : BpfReg := ⟨3, by decide⟩
def r4 : BpfReg := ⟨4, by decide⟩
def r5 : BpfReg := ⟨5, by decide⟩
/-- The first register that is given back to the caller. -/
def r6 : BpfReg := ⟨6, by decide⟩
/-- The frame pointer (read-only). -/
def r10 : BpfReg := ⟨10, by decide⟩

/-- Construct from a raw 4-bit register field. -/
def fromRaw (raw : U8) : Option BpfReg :=
  if h : raw.toNat ≤ 10 then some ⟨raw.toNat, Nat.lt_succ_of_le h⟩ else none

/-- Position in a register file. -/
def index (r : BpfReg) : ℕ := r.val

end BpfReg

/-- Memory access width. -/
inductive MemWidth
  | b
  | h
  | w
  | dw
  deriving DecidableEq, Repr

namespace MemWidth

/-- The width of a size code. -/
def fromSizeCode (code : U8) : Option MemWidth :=
  let c := code &&& 0x18
  if c = bpfB then some .b
  else if c = bpfH then some .h
  else if c = bpfW then some .w
  else if c = bpfDw then some .dw
  else none

/-- The number of bytes. -/
def byteLen : MemWidth → ℕ
  | b => 1
  | h => 2
  | w => 4
  | dw => 8

theorem byteLen_pos (width : MemWidth) : 0 < width.byteLen := by
  cases width <;> decide

theorem byteLen_le (width : MemWidth) : width.byteLen ≤ 8 := by
  cases width <;> decide

end MemWidth

/-- Source operand: an immediate or a register. -/
inductive Source
  | imm (v : I64)
  | reg (r : BpfReg)
  deriving DecidableEq, Repr

/-- ALU operation kind. -/
inductive AluOp
  | add
  | sub
  | mul
  | div
  | or
  | and
  | lsh
  | rsh
  | neg
  | mod
  | xor
  | mov
  | arsh
  deriving DecidableEq, Repr

/-- The operation of an ALU opcode. -/
def AluOp.fromOpcodeBits (bits : U8) : Option AluOp :=
  let b := bits &&& 0xf0
  if b = bpfAdd then some .add
  else if b = bpfSub then some .sub
  else if b = bpfMul then some .mul
  else if b = bpfDiv then some .div
  else if b = bpfOr then some .or
  else if b = bpfAnd then some .and
  else if b = bpfLsh then some .lsh
  else if b = bpfRsh then some .rsh
  else if b = bpfNeg then some .neg
  else if b = bpfMod then some .mod
  else if b = bpfXor then some .xor
  else if b = bpfMov then some .mov
  else if b = bpfArsh then some .arsh
  else none

/-- Branch condition kind. -/
inductive JmpOp
  | ja
  | jeq
  | jgt
  | jge
  | jset
  | jne
  | jsgt
  | jsge
  | jlt
  | jle
  | jslt
  | jsle
  deriving DecidableEq, Repr

/-- The comparison of a jump opcode. -/
def JmpOp.fromOpcodeBits (bits : U8) : Option JmpOp :=
  let b := bits &&& 0xf0
  if b = bpfJa then some .ja
  else if b = bpfJeq then some .jeq
  else if b = bpfJgt then some .jgt
  else if b = bpfJge then some .jge
  else if b = bpfJset then some .jset
  else if b = bpfJne then some .jne
  else if b = bpfJsgt then some .jsgt
  else if b = bpfJsge then some .jsge
  else if b = bpfJlt then some .jlt
  else if b = bpfJle then some .jle
  else if b = bpfJslt then some .jslt
  else if b = bpfJsle then some .jsle
  else none

/-- Atomic memory operation kind. -/
inductive AtomicOp
  | add
  | or
  | and
  | xor
  | xchg
  | cmpXchg
  | fetchAdd
  | fetchOr
  | fetchAnd
  | fetchXor
  deriving DecidableEq, Repr

/-- Endianness conversion width. -/
inductive EndianWidth
  | bits16
  | bits32
  | bits64
  deriving DecidableEq, Repr

/-! ### Instructions -/

/-- A decoded instruction. -/
inductive Insn
  | alu64 (op : AluOp) (dst : BpfReg) (src : Source)
  | alu32 (op : AluOp) (dst : BpfReg) (src : Source)
  /-- `dst = *(width*)(src + off)` -/
  | load (width : MemWidth) (dst src : BpfReg) (off : I16)
  /-- `*(width*)(dst + off) = src` -/
  | storeReg (width : MemWidth) (dst src : BpfReg) (off : I16)
  /-- `*(width*)(dst + off) = imm` -/
  | storeImm (width : MemWidth) (dst : BpfReg) (off : I16) (imm : I32)
  /-- Wide instruction, two slots. -/
  | loadImm64 (dst : BpfReg) (imm : U64)
  /-- `if (dst OP src) goto pc + off` -/
  | jmpCond (op : JmpOp) (dst : BpfReg) (src : Source) (off : I16)
  /-- `if ((u32)dst OP (u32)src) goto pc + off` -/
  | jmpCond32 (op : JmpOp) (dst : BpfReg) (src : Source) (off : I16)
  | ja (off : I16)
  | call (funcId : U32)
  | tailCall
  | exit
  | atomic (width : MemWidth) (op : AtomicOp) (dst src : BpfReg) (off : I16)
  | endian (toBe : Bool) (width : EndianWidth) (dst : BpfReg)
  deriving DecidableEq, Repr

/-- Raw 64-bit instruction encoding. -/
structure RawInsn where
  opcode : U8
  /-- `dst_reg:4 | src_reg:4` -/
  regs : U8
  off : I16
  imm : I32
  deriving DecidableEq, Repr

namespace RawInsn

/-- The destination field, the low half of `regs`. -/
def dstReg (r : RawInsn) : U8 := r.regs &&& 0x0f

/-- The source field, the high half of `regs`. -/
def srcReg (r : RawInsn) : U8 := (r.regs >>> 4) &&& 0x0f

/-- The class, the low three bits of the opcode. -/
def insnClass (r : RawInsn) : U8 := r.opcode &&& 0x07

end RawInsn

/-! ### Branches -/

open Rust in
/-- `(pc as isize + 1 + off as isize) as usize`: where the interpreter and the lowering take a
jump at index `pc` to. -/
def jumpPc {ε : Type} (pc : ℕ) (off : I16) : Rust ε ℕ := do
  let pcI ← toIsize pc
  let pc1 ← isizeAdd pcI 1
  let target ← isizeAdd pc1 off.toInt
  pure (asUsize target)

end NVMirror
