import NVMirror.EbpfCore.Isa

/-!
# AArch64 instruction words (`crates/jit-aarch64/src/encode.rs`)

Register arguments are register numbers.  Words with three register fields, with a 12-bit
immediate and so on are one function of the opcode (`rrr`, `rri12`, …); each encoder is that
function at its own opcode.
-/

namespace NVMirror.Aarch64

open Rust

/-! ### Condition codes -/

def ccEq : U8 := 0x0
def ccNe : U8 := 0x1
/-- Unsigned `>=` (carry set). -/
def ccHs : U8 := 0x2
/-- Unsigned `<` (carry clear). -/
def ccLo : U8 := 0x3
def ccHi : U8 := 0x8
def ccLs : U8 := 0x9
def ccGe : U8 := 0xA
def ccLt : U8 := 0xB
def ccGt : U8 := 0xC
def ccLe : U8 := 0xD
def ccAl : U8 := 0xE

/-! ### Data processing, registers -/

/-- `op | rm << 16 | rn << 5 | rd` -/
def rrr (op : U32) (rd rn rm : U8) : U32 :=
  op ||| (rm.setWidth 32 <<< 16) ||| (rn.setWidth 32 <<< 5) ||| rd.setWidth 32

/-- `op | rm << 16 | ra << 10 | rn << 5 | rd` -/
def rrrr (op : U32) (rd rn rm ra : U8) : U32 :=
  op ||| (rm.setWidth 32 <<< 16) ||| (ra.setWidth 32 <<< 10) ||| (rn.setWidth 32 <<< 5) |||
    rd.setWidth 32

def addXReg (rd rn rm : U8) : U32 := rrr 0x8B000000 rd rn rm
def subXReg (rd rn rm : U8) : U32 := rrr 0xCB000000 rd rn rm
def mulX (rd rn rm : U8) : U32 := rrr 0x9B007C00 rd rn rm
def udivX (rd rn rm : U8) : U32 := rrr 0x9AC00800 rd rn rm
/-- `Xd = Xa - Xn * Xm` -/
def msubX (rd rn rm ra : U8) : U32 := rrrr 0x9B008000 rd rn rm ra
def orrXReg (rd rn rm : U8) : U32 := rrr 0xAA000000 rd rn rm
def andXReg (rd rn rm : U8) : U32 := rrr 0x8A000000 rd rn rm
def eorXReg (rd rn rm : U8) : U32 := rrr 0xCA000000 rd rn rm
def lslvX (rd rn rm : U8) : U32 := rrr 0x9AC02000 rd rn rm
def lsrvX (rd rn rm : U8) : U32 := rrr 0x9AC02400 rd rn rm
def asrvX (rd rn rm : U8) : U32 := rrr 0x9AC02800 rd rn rm
def movXReg (rd rm : U8) : U32 := orrXReg rd 31 rm

def addWReg (rd rn rm : U8) : U32 := rrr 0x0B000000 rd rn rm
def subWReg (rd rn rm : U8) : U32 := rrr 0x4B000000 rd rn rm
def mulW (rd rn rm : U8) : U32 := rrr 0x1B007C00 rd rn rm
def udivW (rd rn rm : U8) : U32 := rrr 0x1AC00800 rd rn rm
def msubW (rd rn rm ra : U8) : U32 := rrrr 0x1B008000 rd rn rm ra
def orrWReg (rd rn rm : U8) : U32 := rrr 0x2A000000 rd rn rm
def andWReg (rd rn rm : U8) : U32 := rrr 0x0A000000 rd rn rm
def eorWReg (rd rn rm : U8) : U32 := rrr 0x4A000000 rd rn rm
def lslvW (rd rn rm : U8) : U32 := rrr 0x1AC02000 rd rn rm
def lsrvW (rd rn rm : U8) : U32 := rrr 0x1AC02400 rd rn rm
def asrvW (rd rn rm : U8) : U32 := rrr 0x1AC02800 rd rn rm
def movWReg (rd rm : U8) : U32 := orrWReg rd 31 rm

/-! ### Data processing, immediates -/

/-- `op | (imm12 & 0xFFF) << 10 | rn << 5 | rd` -/
def rri12 (op : U32) (rd rn : U8) (imm12 : U16) : U32 :=
  op ||| ((imm12.setWidth 32 &&& 0xFFF) <<< 10) ||| (rn.setWidth 32 <<< 5) ||| rd.setWidth 32

def addXImm (rd rn : U8) (imm12 : U16) : U32 := rri12 0x91000000 rd rn imm12
def subXImm (rd rn : U8) (imm12 : U16) : U32 := rri12 0xD1000000 rd rn imm12
def addWImm (rd rn : U8) (imm12 : U16) : U32 := rri12 0x11000000 rd rn imm12
def subWImm (rd rn : U8) (imm12 : U16) : U32 := rri12 0x51000000 rd rn imm12

/-- `op | (hw & mask) << 21 | imm16 << 5 | rd` -/
def movWide (op mask : U32) (rd : U8) (imm16 : U16) (hw : U8) : U32 :=
  op ||| ((hw.setWidth 32 &&& mask) <<< 21) ||| (imm16.setWidth 32 <<< 5) ||| rd.setWidth 32

def movzX (rd : U8) (imm16 : U16) (hw : U8) : U32 := movWide 0xD2800000 3 rd imm16 hw
def movkX (rd : U8) (imm16 : U16) (hw : U8) : U32 := movWide 0xF2800000 3 rd imm16 hw
def movzW (rd : U8) (imm16 : U16) (hw : U8) : U32 := movWide 0x52800000 1 rd imm16 hw
def movkW (rd : U8) (imm16 : U16) (hw : U8) : U32 := movWide 0x72800000 1 rd imm16 hw

/-! ### Shifts by an immediate -/

/-- `LSL` is `UBFM Xd, Xn, #(64 - shift), #(63 - shift)`. -/
def lslXImm {ε : Type} [Profile] (rd rn shift : U8) : Rust ε U32 := do
  let immr ← subU 64 shift
  let imms ← subU 63 shift
  let immr := immr &&& 63
  let imms := imms &&& 63
  pure (0xD3400000 ||| (immr.setWidth 32 <<< 16) ||| (imms.setWidth 32 <<< 10) |||
    (rn.setWidth 32 <<< 5) ||| rd.setWidth 32)

/-- `LSR` is `UBFM Xd, Xn, #shift, #63`. -/
def lsrXImm (rd rn shift : U8) : U32 := rrr 0xD340FC00 rd rn (shift &&& 63)

/-- `ASR` is `SBFM Xd, Xn, #shift, #63`. -/
def asrXImm (rd rn shift : U8) : U32 := rrr 0x9340FC00 rd rn (shift &&& 63)

/-! ### Comparison -/

def cmpXReg (rn rm : U8) : U32 := rrr 0xEB000000 31 rn rm
def cmpWReg (rn rm : U8) : U32 := rrr 0x6B000000 31 rn rm

/-! ### Branches -/

def bCond (cond : U8) (imm19 : I32) : U32 :=
  0x54000000 ||| ((imm19 &&& 0x7FFFF) <<< 5) ||| cond.setWidth 32

def bImm (imm26 : I32) : U32 := 0x14000000 ||| (imm26 &&& 0x03FFFFFF)

def blr (rn : U8) : U32 := 0xD63F0000 ||| (rn.setWidth 32 <<< 5)

def ret : U32 := 0xD65F03C0

/-! ### Loads and stores -/

/-- `op | (off as u16 >> scale) << 10 | rn << 5 | rt` -/
def ldst (op : U32) (scale : ℕ) (rt rn : U8) (off : I16) : U32 :=
  op ||| ((off >>> scale).setWidth 32 <<< 10) ||| (rn.setWidth 32 <<< 5) ||| rt.setWidth 32

def ldrXImm (rt rn : U8) (off : I16) : U32 := ldst 0xF9400000 3 rt rn off
def ldrWImm (rt rn : U8) (off : I16) : U32 := ldst 0xB9400000 2 rt rn off
def ldrhImm (rt rn : U8) (off : I16) : U32 := ldst 0x79400000 1 rt rn off
def ldrbImm (rt rn : U8) (off : I16) : U32 := ldst 0x39400000 0 rt rn off
def strXImm (rt rn : U8) (off : I16) : U32 := ldst 0xF9000000 3 rt rn off
def strWImm (rt rn : U8) (off : I16) : U32 := ldst 0xB9000000 2 rt rn off
def strhImm (rt rn : U8) (off : I16) : U32 := ldst 0x79000000 1 rt rn off
def strbImm (rt rn : U8) (off : I16) : U32 := ldst 0x39000000 0 rt rn off

/-- `op | ((off / 8) & 0x7F) << 15 | rt2 << 10 | rn << 5 | rt1` -/
def ldstPair (op : U32) (rt1 rt2 rn : U8) (off : I16) : U32 :=
  op ||| (((off.sdiv 8).signExtend 32 &&& 0x7F) <<< 15) ||| (rt2.setWidth 32 <<< 10) |||
    (rn.setWidth 32 <<< 5) ||| rt1.setWidth 32

def stpPre (rt1 rt2 rn : U8) (off : I16) : U32 := ldstPair 0xA9800000 rt1 rt2 rn off
def ldpPost (rt1 rt2 rn : U8) (off : I16) : U32 := ldstPair 0xA8C00000 rt1 rt2 rn off
def stpOffset (rt1 rt2 rn : U8) (off : I16) : U32 := ldstPair 0xA9000000 rt1 rt2 rn off
def ldpOffset (rt1 rt2 rn : U8) (off : I16) : U32 := ldstPair 0xA9400000 rt1 rt2 rn off

/-! ### Atomics and barriers -/

def ldaddX (rs rt rn : U8) : U32 := rrr 0xF8E00000 rt rn rs
def ldsetX (rs rt rn : U8) : U32 := rrr 0xF8E03000 rt rn rs
def ldclrX (rs rt rn : U8) : U32 := rrr 0xF8E01000 rt rn rs
def ldeorX (rs rt rn : U8) : U32 := rrr 0xF8E02000 rt rn rs
def swpX (rs rt rn : U8) : U32 := rrr 0xF8E08000 rt rn rs
def casX (rs rt rn : U8) : U32 := rrr 0xC8E07C00 rt rn rs

def dmbIsh : U32 := 0xD5033BBF

/-! ### Byte reversal -/

/-- `op | rn << 5 | rd` -/
def rr (op : U32) (rd rn : U8) : U32 := op ||| (rn.setWidth 32 <<< 5) ||| rd.setWidth 32

def rev16W (rd rn : U8) : U32 := rr 0x5AC00400 rd rn
def revW (rd rn : U8) : U32 := rr 0x5AC00800 rd rn
def revX (rd rn : U8) : U32 := rr 0xDAC00C00 rd rn

/-- `AND Xd, Xn, #0xFFFF`; the mask is not used. -/
def andXImmMask (rd rn : U8) (_mask : U16) : U32 := rr 0x92400F00 rd rn

end NVMirror.Aarch64
