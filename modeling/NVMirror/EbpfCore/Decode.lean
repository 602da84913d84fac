import NVMirror.EbpfCore.Isa

/-!
# The decoder (`crates/ebpf-core/src/decode.rs`)

`decodeProgram` translates raw instructions into typed ones.  `decodeInsn` is the body of its
loop: the instruction read at slot `pc` and the number of slots it takes.  The loop counter
advances by at least one, so `raw.length` iterations always suffice (`decodeLoop` panics when
they do not, and `decodeProgram_meets` shows that it never panics).
-/

namespace NVMirror

open Rust

/-- Why a program is not decoded; `pc` is the slot. -/
inductive DecodeError
  | unknownOpcode (pc : ℕ) (opcode : U8)
  | invalidRegister (pc : ℕ) (raw : U8)
  | truncatedWideInsn (pc : ℕ)
  | programTooLarge (count : ℕ)
  | emptyProgram
  | invalidAtomicOp (pc : ℕ) (imm : U32)
  | invalidEndianWidth (pc : ℕ) (imm : I32)
  deriving DecidableEq, Repr

/-- `reg`: a register field, or the error at `pc`. -/
def decodeReg (raw : U8) (pc : ℕ) : Rust DecodeError BpfReg :=
  okOr (BpfReg.fromRaw raw) (.invalidRegister pc raw)

/-- `source`: the second operand of ALU instructions and conditional jumps. -/
def decodeSource (r : RawInsn) (pc : ℕ) : Rust DecodeError Source :=
  if r.opcode &&& bpfX ≠ 0 then do
    let s ← decodeReg r.srcReg pc
    pure (.reg s)
  else
    pure (.imm (r.imm.signExtend 64))

/-- The `BPF_ALU` and `BPF_ALU64` arms, byte-order conversions included. -/
def decodeAlu (r : RawInsn) (pc : ℕ) (is64 : Bool) : Rust DecodeError Insn := do
  let opBits := r.opcode &&& 0xf0
  let dst ← decodeReg r.dstReg pc
  if opBits = bpfEnd then
    let toBe := decide (r.opcode &&& bpfX ≠ 0)
    if r.imm = 16 then pure (.endian toBe .bits16 dst)
    else if r.imm = 32 then pure (.endian toBe .bits32 dst)
    else if r.imm = 64 then pure (.endian toBe .bits64 dst)
    else fail (.invalidEndianWidth pc r.imm)
  else
    let op ← okOr (AluOp.fromOpcodeBits r.opcode) (.unknownOpcode pc r.opcode)
    let src ← decodeSource r pc
    if is64 then pure (.alu64 op dst src) else pure (.alu32 op dst src)

/-- The `BPF_JMP` arm. -/
def decodeJmp (r : RawInsn) (pc : ℕ) : Rust DecodeError Insn :=
  let opBits := r.opcode &&& 0xf0
  if opBits = bpfJa then pure (.ja r.off)
  else if opBits = bpfCall then pure (.call r.imm)
  else if opBits = bpfExit then pure .exit
  else do
    let op ← okOr (JmpOp.fromOpcodeBits r.opcode) (.unknownOpcode pc r.opcode)
    let dst ← decodeReg r.dstReg pc
    let src ← decodeSource r pc
    pure (.jmpCond op dst src r.off)

/-- The `BPF_JMP32` arm: conditional jumps on the low halves. -/
def decodeJmp32 (r : RawInsn) (pc : ℕ) : Rust DecodeError Insn := do
  let op ← okOr (JmpOp.fromOpcodeBits r.opcode) (.unknownOpcode pc r.opcode)
  let dst ← decodeReg r.dstReg pc
  let src ← decodeSource r pc
  pure (.jmpCond32 op dst src r.off)

/-- The `BPF_LDX` arm: loads. -/
def decodeLdx (r : RawInsn) (pc : ℕ) : Rust DecodeError Insn := do
  let width ← okOr (MemWidth.fromSizeCode r.opcode) (.unknownOpcode pc r.opcode)
  let dst ← decodeReg r.dstReg pc
  let src ← decodeReg r.srcReg pc
  pure (.load width dst src r.off)

/-- The atomic operation in `imm`; a fetching one has the bit `bpfAtomicFetch`. -/
def decodeAtomicOp (imm : U32) (pc : ℕ) : Rust DecodeError AtomicOp :=
  let fetch := imm &&& bpfAtomicFetch
  let base := imm &&& ~~~bpfAtomicFetch
  if base = bpfAtomicAdd then pure (if fetch ≠ 0 then .fetchAdd else .add)
  else if base = bpfAtomicOr then pure (if fetch ≠ 0 then .fetchOr else .or)
  else if base = bpfAtomicAnd then pure (if fetch ≠ 0 then .fetchAnd else .and)
  else if base = bpfAtomicXor then pure (if fetch ≠ 0 then .fetchXor else .xor)
  else if imm = bpfAtomicXchg then pure .xchg
  else if imm = bpfAtomicCmpxchg then pure .cmpXchg
  else fail (.invalidAtomicOp pc imm)

/-- The `BPF_STX` arm: stores of a register, and atomic operations. -/
def decodeStx (r : RawInsn) (pc : ℕ) : Rust DecodeError Insn := do
  let mode := r.opcode &&& 0xe0
  let width ← okOr (MemWidth.fromSizeCode r.opcode) (.unknownOpcode pc r.opcode)
  let dst ← decodeReg r.dstReg pc
  let src ← decodeReg r.srcReg pc
  if mode = bpfAtomic then
    let atomicOp ← decodeAtomicOp r.imm pc
    pure (.atomic width atomicOp dst src r.off)
  else
    pure (.storeReg width dst src r.off)

/-- The `BPF_ST` arm: stores of an immediate. -/
def decodeSt (r : RawInsn) (pc : ℕ) : Rust DecodeError Insn := do
  let width ← okOr (MemWidth.fromSizeCode r.opcode) (.unknownOpcode pc r.opcode)
  let dst ← decodeReg r.dstReg pc
  pure (.storeImm width dst r.off r.imm)

/-- The `BPF_LD` arm: only the two-slot `LDDW` is known. -/
def decodeLddw (raw : List RawInsn) (r : RawInsn) (pc : ℕ) : Rust DecodeError Insn :=
  let mode := r.opcode &&& 0xe0
  if mode = bpfImm ∧ r.opcode &&& 0x18 = bpfDw then do
    let pc1 ← usizeAdd pc 1
    if raw.length ≤ pc1 then fail (.truncatedWideInsn pc)
    else
      let next ← index raw pc1
      let immLo : U64 := r.imm.setWidth 64
      let immHi : U64 := next.imm.setWidth 64 <<< 32
      let dst ← decodeReg r.dstReg pc
      pure (.loadImm64 dst (immLo ||| immHi))
  else
    fail (.unknownOpcode pc r.opcode)

/-- One iteration of the decoding loop: the instruction at slot `pc` and its number of slots. -/
def decodeInsn (raw : List RawInsn) (pc : ℕ) : Rust DecodeError (Insn × ℕ) := do
  let r ← index raw pc
  let cls := r.insnClass
  if cls = bpfAlu64 then do let insn ← decodeAlu r pc true; pure (insn, 1)
  else if cls = bpfAlu then do let insn ← decodeAlu r pc false; pure (insn, 1)
  else if cls = bpfJmp then do let insn ← decodeJmp r pc; pure (insn, 1)
  else if cls = bpfJmp32 then do let insn ← decodeJmp32 r pc; pure (insn, 1)
  else if cls = bpfLdx then do let insn ← decodeLdx r pc; pure (insn, 1)
  else if cls = bpfStx then do let insn ← decodeStx r pc; pure (insn, 1)
  else if cls = bpfSt then do let insn ← decodeSt r pc; pure (insn, 1)
  else if cls = bpfLd then do let insn ← decodeLddw raw r pc; pure (insn, 2)
  else fail (.unknownOpcode pc r.opcode)

/-- `while pc < raw.len()`. -/
def decodeLoop (raw : List RawInsn) : ℕ → ℕ → List Insn → Rust DecodeError (List Insn)
  | 0, pc, insns => if pc < raw.length then panic else pure insns
  | fuel + 1, pc, insns =>
    if pc < raw.length then do
      let (insn, size) ← decodeInsn raw pc
      let pc' ← usizeAdd pc size
      decodeLoop raw fuel pc' (insns ++ [insn])
    else
      pure insns

/-- Decode all raw instructions, unless there are none or too many. -/
def decodeProgram (raw : List RawInsn) : Rust DecodeError (List Insn) :=
  if raw = [] then fail .emptyProgram
  else if maxInsns < raw.length then fail (.programTooLarge raw.length)
  else decodeLoop raw raw.length 0 []

end NVMirror
