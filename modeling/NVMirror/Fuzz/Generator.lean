import NVMirror.EbpfCore.Isa
import NVMirror.Library.Draws

/-!
# The program generator of the fuzzer (`fuzz/src/lib.rs`)

`generateProgram` builds a program from templates: it initialises some registers, appends
arithmetic and forward branches, and ends with `Exit`.  The random numbers come from any source
`nextU64`; the fuzzer's own source is the `Rng`.  The arms of the `match` over the kinds of
instructions are definitions of their own.
-/

namespace NVMirror

open Rust

/-- Pseudo-random number generator (xorshift64). -/
structure Rng where
  state : U64
  deriving DecidableEq, Repr

namespace Rng

/-- The generator of a seed; its state is never 0. -/
def new (seed : U64) : Rng where
  state := if seed = 0 then 1 else seed

/-- One step of the xorshift generator. -/
def nextU64 (rng : Rng) : U64 × Rng :=
  let x := rng.state
  let x := x ^^^ (x <<< 13)
  let x := x ^^^ (x >>> 7)
  let x := x ^^^ (x <<< 17)
  (x, { state := x })

end Rng

/-- A raw instruction from its fields. -/
def makeRaw (opcode dst src : U8) (off : I16) (imm : I32) : RawInsn where
  opcode := opcode
  regs := (src <<< 4) ||| dst
  off := off
  imm := imm

variable {ρ : Type} [Profile] (nextU64 : ρ → U64 × ρ)

/-- A number in `[lo, hi)`. -/
def Rng.range (lo hi : I64) : Gen ρ I64 := do
  let span ← (subS hi lo : Rust Empty I64)
  if span = 0 then pure lo
  else
    let x ← draw nextU64
    (addS lo (x % span) : Rust Empty I64)

/-- One of the items. -/
def Rng.pick (items : List U8) : Gen ρ U8 := do
  let x ← draw nextU64
  (index items (x.toNat % items.length) : Rust Empty U8)

/-! ### Kinds of instructions -/

/-- The immediate of an ALU64 operation. -/
def alu64Operand (op : U8) : Gen ρ I64 :=
  if op = bpfMul then Rng.range nextU64 1 10
  else if op = bpfLsh ∨ op = bpfRsh then Rng.range nextU64 0 16
  else if op = bpfDiv then Rng.range nextU64 1 100
  else Rng.range nextU64 (-100) 100

/-- ALU64 reg-imm; only `R0`-`R4` are modified. -/
def alu64Imm : Gen ρ RawInsn := do
  let op ← Rng.pick nextU64 [bpfAdd, bpfSub, bpfMul, bpfOr, bpfAnd, bpfXor, bpfLsh, bpfRsh]
  let dst ← Rng.range nextU64 0 5
  let imm ← alu64Operand nextU64 op
  pure (makeRaw (bpfAlu64 ||| op ||| bpfK) (dst.setWidth 8) 0 0 (imm.setWidth 32))

/-- ALU64 reg-reg. -/
def alu64Reg : Gen ρ RawInsn := do
  let op ← Rng.pick nextU64 [bpfAdd, bpfSub, bpfOr, bpfAnd, bpfXor]
  let dst ← Rng.range nextU64 0 5
  let src ← Rng.range nextU64 0 5
  pure (makeRaw (bpfAlu64 ||| op ||| bpfX) (dst.setWidth 8) (src.setWidth 8) 0 0)

/-- ALU32 reg-imm. -/
def alu32Imm : Gen ρ RawInsn := do
  let op ← Rng.pick nextU64 [bpfAdd, bpfSub, bpfOr, bpfAnd, bpfXor]
  let dst ← Rng.range nextU64 0 5
  let imm ← Rng.range nextU64 (-50) 50
  pure (makeRaw (bpfAlu ||| op ||| bpfK) (dst.setWidth 8) 0 0 (imm.setWidth 32))

/-- MOV64 imm. -/
def mov64Imm (dst : U8) (lo hi : I64) : Gen ρ RawInsn := do
  let imm ← Rng.range nextU64 lo hi
  pure (makeRaw (bpfAlu64 ||| bpfMov ||| bpfK) dst 0 0 (imm.setWidth 32))

/-- Conditional branch (forward only), or a MOV when there is not enough room. -/
def branchOrMov (remaining i : ℕ) : Gen ρ RawInsn := do
  let spaceLeft ← (usizeSub remaining i : Rust Empty ℕ)
  if 2 < spaceLeft then
    let room ← (usizeSub spaceLeft 1 : Rust Empty ℕ)
    let off ← Rng.range nextU64 1 (BitVec.ofNat 64 (min room 5))
    let op ← Rng.pick nextU64 [bpfJeq, bpfJne, bpfJgt, bpfJge, bpfJlt, bpfJle]
    let dst ← Rng.range nextU64 0 5
    let imm ← Rng.range nextU64 0 1000
    pure (makeRaw (bpfJmp ||| op ||| bpfK) (dst.setWidth 8) 0 (off.setWidth 16) (imm.setWidth 32))
  else
    mov64Imm nextU64 0 0 100

/-- Instruction `i` of the `remaining` ones. -/
def randomInsn (remaining i : ℕ) : Gen ρ RawInsn := do
  let x ← draw nextU64
  let kind := (x % 10).toNat
  if kind ≤ 3 then alu64Imm nextU64
  else if kind ≤ 5 then alu64Reg nextU64
  else if kind ≤ 7 then alu32Imm nextU64
  else if kind = 8 then
    let dst ← Rng.range nextU64 0 5
    mov64Imm nextU64 (dst.setWidth 8) 0 1000
  else branchOrMov nextU64 remaining i

/-! ### The program -/

/-- Loop body: initialise the register `r` in one case out of three. -/
def initReg (insns : List RawInsn) (r : U8) : Gen ρ (List RawInsn) := do
  let x ← draw nextU64
  if x % 3 = 0 then
    let insn ← mov64Imm nextU64 r 1 50
    pure (insns ++ [insn])
  else
    pure insns

/-- Loop body: append one instruction. -/
def pushInsn (remaining : ℕ) (insns : List RawInsn) (i : ℕ) : Gen ρ (List RawInsn) := do
  let insn ← randomInsn nextU64 remaining i
  pure (insns ++ [insn])

/-- Generate a program of about `limit` instructions. -/
def generateProgram (limit : ℕ) : Gen ρ (List RawInsn) := do
  let x ← draw nextU64
  let n ← (usizeAdd 2 (x.toNat % max (limit - 2) 1) : Rust Empty ℕ)
  let r0 ← mov64Imm nextU64 0 0 1000
  let r1 ← mov64Imm nextU64 1 1 100
  let insns ← [2, 3, 4, 5, 6, 7, 8, 9].foldlM (initReg nextU64) [r0, r1]
  let remaining := n - insns.length - 1
  let insns ← (List.range remaining).foldlM (pushInsn nextU64 remaining) insns
  pure (insns ++ [makeRaw (bpfJmp ||| bpfExit) 0 0 0 0])

end NVMirror
