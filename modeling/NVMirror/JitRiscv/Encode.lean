import NVMirror.EbpfCore.Isa

/-!
# RISC-V instruction words (`crates/jit-riscv/src/encode.rs`)

Register arguments are register numbers; the formats are those of the ISA specification (R, I, S,
B, U and J type, and the atomics).
-/

namespace NVMirror.Riscv

/-- Sign-extend a 12-bit value. -/
def signExtend12 (val : I32) : I32 := ((val &&& 0xFFF) <<< 20).sshiftRight 20

/-! ### R type -/

def rType (funct7 : U32) (rs2 rs1 : U8) (funct3 : U32) (rd : U8) (opcode : U32) : U32 :=
  (funct7 <<< 25) ||| (rs2.setWidth 32 <<< 20) ||| (rs1.setWidth 32 <<< 15) ||| (funct3 <<< 12) |||
    (rd.setWidth 32 <<< 7) ||| opcode

def add (rd rs1 rs2 : U8) : U32 := rType 0 rs2 rs1 0 rd 0x33
def sub (rd rs1 rs2 : U8) : U32 := rType 0x20 rs2 rs1 0 rd 0x33
def sll (rd rs1 rs2 : U8) : U32 := rType 0 rs2 rs1 1 rd 0x33
def srl (rd rs1 rs2 : U8) : U32 := rType 0 rs2 rs1 5 rd 0x33
def sra (rd rs1 rs2 : U8) : U32 := rType 0x20 rs2 rs1 5 rd 0x33
def or (rd rs1 rs2 : U8) : U32 := rType 0 rs2 rs1 6 rd 0x33
def and (rd rs1 rs2 : U8) : U32 := rType 0 rs2 rs1 7 rd 0x33
def xor (rd rs1 rs2 : U8) : U32 := rType 0 rs2 rs1 4 rd 0x33

def mul (rd rs1 rs2 : U8) : U32 := rType 1 rs2 rs1 0 rd 0x33
def divu (rd rs1 rs2 : U8) : U32 := rType 1 rs2 rs1 5 rd 0x33
def remu (rd rs1 rs2 : U8) : U32 := rType 1 rs2 rs1 7 rd 0x33

def addw (rd rs1 rs2 : U8) : U32 := rType 0 rs2 rs1 0 rd 0x3B
def subw (rd rs1 rs2 : U8) : U32 := rType 0x20 rs2 rs1 0 rd 0x3B
def sllw (rd rs1 rs2 : U8) : U32 := rType 0 rs2 rs1 1 rd 0x3B
def srlw (rd rs1 rs2 : U8) : U32 := rType 0 rs2 rs1 5 rd 0x3B
def sraw (rd rs1 rs2 : U8) : U32 := rType 0x20 rs2 rs1 5 rd 0x3B
def mulw (rd rs1 rs2 : U8) : U32 := rType 1 rs2 rs1 0 rd 0x3B
def divuw (rd rs1 rs2 : U8) : U32 := rType 1 rs2 rs1 5 rd 0x3B
def remuw (rd rs1 rs2 : U8) : U32 := rType 1 rs2 rs1 7 rd 0x3B

/-! ### I type -/

def iType (imm : I32) (rs1 : U8) (funct3 : U32) (rd : U8) (opcode : U32) : U32 :=
  ((imm &&& 0xFFF) <<< 20) ||| (rs1.setWidth 32 <<< 15) ||| (funct3 <<< 12) |||
    (rd.setWidth 32 <<< 7) ||| opcode

def addi (rd rs1 : U8) (imm : I32) : U32 := iType imm rs1 0 rd 0x13
def andi (rd rs1 : U8) (imm : I32) : U32 := iType imm rs1 7 rd 0x13
def ori (rd rs1 : U8) (imm : I32) : U32 := iType imm rs1 6 rd 0x13
def xori (rd rs1 : U8) (imm : I32) : U32 := iType imm rs1 4 rd 0x13

/-- A shift by a 6-bit amount. -/
def shiftImm (funct7 : U32) (rs1 : U8) (shamt funct3 : U32) (rd : U8) : U32 :=
  (funct7 <<< 20) ||| ((shamt &&& 0x3F) <<< 20) ||| (rs1.setWidth 32 <<< 15) ||| (funct3 <<< 12) |||
    (rd.setWidth 32 <<< 7) ||| 0x13

def slli (rd rs1 : U8) (shamt : U32) : U32 := shiftImm 0 rs1 shamt 1 rd
def srli (rd rs1 : U8) (shamt : U32) : U32 := shiftImm 0 rs1 shamt 5 rd
def srai (rd rs1 : U8) (shamt : U32) : U32 := shiftImm 0x400 rs1 shamt 5 rd

def jalr (rd rs1 : U8) (imm : I32) : U32 := iType imm rs1 0 rd 0x67

def lbu (rd rs1 : U8) (imm : I32) : U32 := iType imm rs1 4 rd 0x03
def lhu (rd rs1 : U8) (imm : I32) : U32 := iType imm rs1 5 rd 0x03
def lwu (rd rs1 : U8) (imm : I32) : U32 := iType imm rs1 6 rd 0x03
def ld (rd rs1 : U8) (imm : I32) : U32 := iType imm rs1 3 rd 0x03

/-! ### S type -/

def sType (imm : I32) (rs2 rs1 : U8) (funct3 opcode : U32) : U32 :=
  let imm := imm &&& 0xFFF
  let immHi := imm.sshiftRight 5 &&& 0x7F
  let immLo := imm &&& 0x1F
  (immHi <<< 25) ||| (rs2.setWidth 32 <<< 20) ||| (rs1.setWidth 32 <<< 15) ||| (funct3 <<< 12) |||
    (immLo <<< 7) ||| opcode

def sb (rs2 rs1 : U8) (imm : I32) : U32 := sType imm rs2 rs1 0 0x23
def sh (rs2 rs1 : U8) (imm : I32) : U32 := sType imm rs2 rs1 1 0x23
def sw (rs2 rs1 : U8) (imm : I32) : U32 := sType imm rs2 rs1 2 0x23
def sd (rs2 rs1 : U8) (imm : I32) : U32 := sType imm rs2 rs1 3 0x23

/-! ### B type -/

/-- Encode B-type immediate field (12-bit signed, byte-addressed). -/
def encodeBTypeImm (imm : I32) : U32 :=
  let imm := imm &&& 0x1FFE
  let bit12 := imm.sshiftRight 12 &&& 1
  let bit11 := imm.sshiftRight 11 &&& 1
  let bits10To5 := imm.sshiftRight 5 &&& 0x3F
  let bits4To1 := imm.sshiftRight 1 &&& 0xF
  (bit12 <<< 31) ||| (bits10To5 <<< 25) ||| (bits4To1 <<< 8) ||| (bit11 <<< 7)

def bType (funct3 : U32) (rs1 rs2 : U8) (imm : I32) : U32 :=
  encodeBTypeImm imm ||| (rs2.setWidth 32 <<< 20) ||| (rs1.setWidth 32 <<< 15) |||
    (funct3 <<< 12) ||| 0x63

def beq (rs1 rs2 : U8) (imm : I32) : U32 := bType 0 rs1 rs2 imm
def bne (rs1 rs2 : U8) (imm : I32) : U32 := bType 1 rs1 rs2 imm
def blt (rs1 rs2 : U8) (imm : I32) : U32 := bType 4 rs1 rs2 imm
def bge (rs1 rs2 : U8) (imm : I32) : U32 := bType 5 rs1 rs2 imm
def bltu (rs1 rs2 : U8) (imm : I32) : U32 := bType 6 rs1 rs2 imm
def bgeu (rs1 rs2 : U8) (imm : I32) : U32 := bType 7 rs1 rs2 imm

/-! ### U and J type -/

def lui (rd : U8) (imm : I32) : U32 := (imm &&& 0xFFFFF000) ||| (rd.setWidth 32 <<< 7) ||| 0x37

/-- Encode J-type immediate field (20-bit signed, byte-addressed). -/
def encodeJTypeImm (imm : I32) : U32 :=
  let bit20 := imm.sshiftRight 20 &&& 1
  let bits10To1 := imm.sshiftRight 1 &&& 0x3FF
  let bit11 := imm.sshiftRight 11 &&& 1
  let bits19To12 := imm.sshiftRight 12 &&& 0xFF
  (bit20 <<< 31) ||| (bits10To1 <<< 21) ||| (bit11 <<< 20) ||| (bits19To12 <<< 12)

def jal (rd : U8) (imm : I32) : U32 := encodeJTypeImm imm ||| (rd.setWidth 32 <<< 7) ||| 0x6F

/-! ### Atomics and fences -/

def amo (funct5 : U32) (aq rl : Bool) (rs2 rs1 : U8) (funct3 : U32) (rd : U8) : U32 :=
  let aqBit : U32 := if aq then 1 else 0
  let rlBit : U32 := if rl then 1 else 0
  (funct5 <<< 27) ||| (aqBit <<< 26) ||| (rlBit <<< 25) ||| (rs2.setWidth 32 <<< 20) |||
    (rs1.setWidth 32 <<< 15) ||| (funct3 <<< 12) ||| (rd.setWidth 32 <<< 7) ||| 0x2F

def amoaddD (rd rs2 rs1 : U8) : U32 := amo 0x00 true true rs2 rs1 3 rd
def amoorD (rd rs2 rs1 : U8) : U32 := amo 0x08 true true rs2 rs1 3 rd
def amoandD (rd rs2 rs1 : U8) : U32 := amo 0x0C true true rs2 rs1 3 rd
def amoxorD (rd rs2 rs1 : U8) : U32 := amo 0x04 true true rs2 rs1 3 rd
def amoswapD (rd rs2 rs1 : U8) : U32 := amo 0x01 true true rs2 rs1 3 rd
def lrD (rd rs1 : U8) : U32 := amo 0x02 true true 0 rs1 3 rd
def scD (rd rs2 rs1 : U8) : U32 := amo 0x03 true true rs2 rs1 3 rd

def fenceRwRw : U32 := 0x0330000F

end NVMirror.Riscv
