import NVMirror.EbpfCore.Slots
import NVMirror.Fuzz.Generator

/-!
# What the generator emits

Every instruction the generator emits is an arithmetic one that does not touch `R10`, or a
conditional jump that leads forward and stays before the final `Exit` (`Generated`); wherever it
stands in a program, it decodes to one instruction (`DecodesTo`).

* `randomInsn_yields`: instruction `i` of the random part.
* `generateProgram_yields`: the program.
-/

namespace NVMirror

open Rust

/-- Wherever the slot stands in a program, it decodes to `insn`. -/
def RawInsn.DecodesTo (r : RawInsn) (insn : Insn) : Prop :=
  ∀ (raw : List RawInsn) (pc : ℕ), raw[pc]? = some r → decodeInsn raw pc = .ok (insn, 1)

/-- What may stand at `pc` in a generated program of length `len`. -/
inductive Generated (len pc : ℕ) : Insn → Prop
  | alu64 {op : AluOp} {dst : BpfReg} {src : Source} (hop : op ≠ .neg) (hdst : dst ≠ BpfReg.r10) :
    Generated len pc (.alu64 op dst src)
  | alu32 {op : AluOp} {dst : BpfReg} {src : Source} (hop : op ≠ .neg) (hdst : dst ≠ BpfReg.r10) :
    Generated len pc (.alu32 op dst src)
  | jmpCond {op : JmpOp} {dst : BpfReg} {src : Source} {off : I16} {q : ℕ}
    (htarget : IsTarget pc off q) (hgt : pc < q) (hlt : q < len) :
    Generated len pc (.jmpCond op dst src off)

/-! ### Decoding the templates -/

section Decoding

variable {opcode dst src : U8} {off : I16} {imm : I32}

@[simp] theorem opcode_makeRaw : (makeRaw opcode dst src off imm).opcode = opcode := rfl

@[simp] theorem insnClass_makeRaw :
    (makeRaw opcode dst src off imm).insnClass = opcode &&& 0x07 := rfl

/-- The register fields of a slot. -/
theorem fields_makeRaw (hd : dst.toNat < 10) (hs : src.toNat < 10) :
    (makeRaw opcode dst src off imm).dstReg = dst ∧
      (makeRaw opcode dst src off imm).srcReg = src := by
  have hall : ∀ d s : Fin 10,
      ((BitVec.ofNat 8 s <<< 4 ||| BitVec.ofNat 8 d) &&& 0x0f = BitVec.ofNat 8 d) ∧
      ((BitVec.ofNat 8 s <<< 4 ||| BitVec.ofNat 8 d) >>> 4 &&& 0x0f = BitVec.ofNat 8 s) := by
    decide +kernel
  have h := hall ⟨dst.toNat, hd⟩ ⟨src.toNat, hs⟩
  simp only [BitVec.ofNat_toNat, BitVec.setWidth_eq] at h
  exact h

/-- Registers below `R10` are read and written freely. -/
theorem decodeReg_of_lt (hd : dst.toNat < 10) :
    ∃ r, r ≠ BpfReg.r10 ∧ ∀ pc, decodeReg dst pc = .ok r := by
  have hle : dst.toNat ≤ 10 := by omega
  refine ⟨⟨dst.toNat, Nat.lt_succ_of_le hle⟩, fun h => ?_, fun pc => ?_⟩
  · have := congrArg Fin.val h
    simp only [BpfReg.r10] at this
    omega
  · rw [decodeReg, BpfReg.fromRaw, dif_pos hle]
    rfl

/-- A second operand below `R10`, or an immediate. -/
theorem decodeSource_of_lt (hd : dst.toNat < 10) (hs : src.toNat < 10) :
    ∃ source, ∀ pc, decodeSource (makeRaw opcode dst src off imm) pc = .ok source := by
  obtain ⟨r, -, hr⟩ := decodeReg_of_lt hs
  by_cases hx : opcode &&& bpfX ≠ 0
  · refine ⟨.reg r, fun pc => ?_⟩
    rw [decodeSource, opcode_makeRaw, if_pos hx, (fields_makeRaw hd hs).2, hr]
    rfl
  · refine ⟨.imm (imm.signExtend 64), fun pc => ?_⟩
    rw [decodeSource, opcode_makeRaw, if_neg hx]
    rfl

/-- The opcode of an arithmetic instruction other than `NEG` and the byte swaps. -/
def AluOpcode (cls opcode : U8) : Prop :=
  opcode &&& 0x07 = cls ∧ opcode &&& 0xf0 ≠ bpfEnd ∧
    (AluOp.fromOpcodeBits opcode).isSome ∧ AluOp.fromOpcodeBits opcode ≠ some .neg

instance (cls opcode : U8) : Decidable (AluOpcode cls opcode) :=
  inferInstanceAs (Decidable (_ ∧ _ ∧ _ ∧ _))

/-- The opcode of a conditional jump. -/
def JmpOpcode (opcode : U8) : Prop :=
  opcode &&& 0x07 = bpfJmp ∧
    (opcode &&& 0xf0 ≠ bpfJa ∧ opcode &&& 0xf0 ≠ bpfCall ∧ opcode &&& 0xf0 ≠ bpfExit) ∧
    (JmpOp.fromOpcodeBits opcode).isSome

instance (opcode : U8) : Decidable (JmpOpcode opcode) :=
  inferInstanceAs (Decidable (_ ∧ _ ∧ _))

/-- The arithmetic operations of the generator, with either operand. -/
theorem aluOpcode_of_mem : ∀ cls ∈ [bpfAlu64, bpfAlu], ∀ m ∈ [bpfK, bpfX],
    ∀ op ∈ [bpfAdd, bpfSub, bpfMul, bpfOr, bpfAnd, bpfXor, bpfLsh, bpfRsh, bpfMov],
      AluOpcode cls (cls ||| op ||| m) := by
  decide +kernel

theorem jmpOpcode_of_mem : ∀ op ∈ [bpfJeq, bpfJne, bpfJgt, bpfJge, bpfJlt, bpfJle],
    JmpOpcode (bpfJmp ||| op ||| bpfK) := by
  decide +kernel

/-- An arithmetic instruction. -/
theorem decodesTo_alu {cls : U8} (hcls : cls = bpfAlu64 ∨ cls = bpfAlu)
    (h : AluOpcode cls opcode) (hd : dst.toNat < 10) (hs : src.toNat < 10) :
    ∃ insn, (makeRaw opcode dst src off imm).DecodesTo insn ∧
      ∀ len pc, Generated len pc insn := by
  obtain ⟨hclass, hend, hsome, hneg⟩ := h
  obtain ⟨op, hop⟩ := Option.isSome_iff_exists.1 hsome
  have hne : op ≠ .neg := fun he => hneg (he ▸ hop)
  obtain ⟨r, hr, hreg⟩ := decodeReg_of_lt hd
  obtain ⟨source, hsource⟩ := @decodeSource_of_lt opcode _ _ off imm hd hs
  have halu : ∀ is64 pc, decodeAlu (makeRaw opcode dst src off imm) pc is64 =
      .ok (if is64 then .alu64 op r source else .alu32 op r source) := by
    intro is64 pc
    have hend' : (makeRaw opcode dst src off imm).opcode &&& 0xf0 ≠ bpfEnd := hend
    unfold decodeAlu
    rw [(fields_makeRaw hd hs).1, hreg, ok_bind, hsource]
    dsimp only
    rw [if_neg hend', opcode_makeRaw, hop]
    cases is64 <;> rfl
  rcases hcls with rfl | rfl
  · refine ⟨.alu64 op r source, fun raw pc hget => ?_, fun _ _ => .alu64 hne hr⟩
    unfold decodeInsn
    rw [index_of_getElem? hget, ok_bind, insnClass_makeRaw, if_pos hclass, halu]
    rfl
  · refine ⟨.alu32 op r source, fun raw pc hget => ?_, fun _ _ => .alu32 hne hr⟩
    unfold decodeInsn
    rw [index_of_getElem? hget, ok_bind, insnClass_makeRaw, if_neg (by rw [hclass]; decide),
      if_pos hclass, halu]
    rfl

/-- A conditional jump. -/
theorem decodesTo_jmpCond (h : JmpOpcode opcode) (hd : dst.toNat < 10) :
    ∃ op r source, (makeRaw opcode dst 0 off imm).DecodesTo (.jmpCond op r source off) := by
  obtain ⟨hclass, ⟨hja, hcall, hexit⟩, hsome⟩ := h
  obtain ⟨op, hop⟩ := Option.isSome_iff_exists.1 hsome
  have hs : (0 : U8).toNat < 10 := by decide
  obtain ⟨r, -, hreg⟩ := decodeReg_of_lt hd
  obtain ⟨source, hsource⟩ := @decodeSource_of_lt opcode _ _ off imm hd hs
  refine ⟨op, r, source, fun raw pc hget => ?_⟩
  have hjmp : decodeJmp (makeRaw opcode dst 0 off imm) pc = .ok (.jmpCond op r source off) := by
    have hne : ∀ bits, opcode &&& 0xf0 ≠ bits →
        (makeRaw opcode dst 0 off imm).opcode &&& 0xf0 ≠ bits := fun _ h => h
    unfold decodeJmp
    dsimp only
    rw [if_neg (hne _ hja), if_neg (hne _ hcall), if_neg (hne _ hexit), opcode_makeRaw, hop,
      (fields_makeRaw hd hs).1, hreg, hsource]
    rfl
  unfold decodeInsn
  rw [index_of_getElem? hget, ok_bind, insnClass_makeRaw, if_neg (by rw [hclass]; decide),
    if_neg (by rw [hclass]; decide), if_pos hclass, hjmp]
  rfl

end Decoding

/-! ### Drawing -/

section Drawing

variable {ρ : Type} [Profile] (nextU64 : ρ → U64 × ρ)

omit [Profile] in
/-- A nonnegative integer is its unsigned value. -/
theorem toInt_eq_of_nonneg {w : ℕ} {v : BitVec w} (h : 0 ≤ v.toInt) : v.toInt = v.toNat := by
  rw [BitVec.toInt_eq_toNat_cond] at h ⊢
  split_ifs at h ⊢
  · rfl
  · have := v.isLt
    omega

/-- A number of the range. -/
theorem range_yields {lo hi : I64} (hlt : lo.toInt < hi.toInt)
    (hspan : hi.toInt - lo.toInt < 2 ^ 63) :
    Yields (Rng.range nextU64 lo hi) (fun v => lo.toInt ≤ v.toInt ∧ v.toInt < hi.toInt) := by
  unfold Rng.range
  refine (Yields.lift (meets_subS (by norm_num; omega))).bind fun span hspan' => ?_
  have hpos : span.toInt = span.toNat := toInt_eq_of_nonneg (by omega)
  have hne : span ≠ 0 := by
    rintro rfl
    have hzero : (0 : I64).toInt = 0 := by decide
    omega
  rw [if_neg hne]
  refine (Yields.draw nextU64).bind fun x _ => ?_
  have hmod : (x % span).toNat < span.toNat := by
    rw [BitVec.toNat_umod]
    exact Nat.mod_lt _ (by omega)
  have hrem : (x % span).toInt = (x % span).toNat := BitVec.toInt_eq_toNat_of_lt (by omega)
  have hlo := BitVec.le_toInt lo
  have hhi := BitVec.toInt_lt (x := hi)
  refine (Yields.lift (meets_addS (by norm_num at hlo hhi ⊢; omega))).imp fun v hv => ?_
  omega

omit [Profile] in
/-- An item of the list. -/
theorem pick_yields {items : List U8} (hne : items ≠ []) :
    Yields (Rng.pick nextU64 items) (fun v => v ∈ items) := by
  unfold Rng.pick
  refine (Yields.draw nextU64).bind fun x _ => ?_
  have hlt : x.toNat % items.length < items.length := Nat.mod_lt _ (List.length_pos_iff.2 hne)
  exact Yields.lift ((meets_index hlt).imp fun v hv => List.mem_of_getElem? hv)

/-- A register below `R5`. -/
theorem reg_yields : Yields (Rng.range nextU64 0 5) (fun v => (v.setWidth 8).toNat < 10) := by
  refine (range_yields nextU64 (by decide) (by decide)).imp fun v hv => ?_
  have h0 : (0 : I64).toInt = 0 := by decide
  have h5 : (5 : I64).toInt = 5 := by decide
  have hv' := toInt_eq_of_nonneg (v := v) (by omega)
  rw [BitVec.toNat_setWidth]
  omega

end Drawing

/-! ### Kinds of instructions -/

section Kinds

variable {ρ : Type} [Profile] (nextU64 : ρ → U64 × ρ)

/-- The slot decodes to an instruction that may stand anywhere in a generated program. -/
def Straight (r : RawInsn) : Prop :=
  ∃ insn, r.DecodesTo insn ∧ ∀ len pc, Generated len pc insn

omit [Profile] in
theorem straight_alu {cls op m dst src : U8} {off : I16} {imm : I32}
    (hcls : cls ∈ [bpfAlu64, bpfAlu]) (hm : m ∈ [bpfK, bpfX])
    (hop : op ∈ [bpfAdd, bpfSub, bpfMul, bpfOr, bpfAnd, bpfXor, bpfLsh, bpfRsh, bpfMov])
    (hd : dst.toNat < 10) (hs : src.toNat < 10) :
    Straight (makeRaw (cls ||| op ||| m) dst src off imm) :=
  decodesTo_alu (by simpa using hcls) (aluOpcode_of_mem cls hcls m hm op hop) hd hs

theorem alu64Imm_yields : Yields (alu64Imm nextU64) Straight := by
  unfold alu64Imm
  refine (pick_yields nextU64 (by simp)).bind fun op hop => ?_
  refine (reg_yields nextU64).bind fun dst hdst => ?_
  have himm : Yields (alu64Operand nextU64 op) fun _ => True := by
    unfold alu64Operand
    split_ifs <;> exact (range_yields nextU64 (by decide) (by decide)).imp fun _ _ => trivial
  refine himm.bind fun imm _ => Yields.pure ?_
  refine straight_alu (by simp) (by simp) ?_ hdst (by decide)
  simp only [List.mem_cons, List.not_mem_nil, or_false] at hop ⊢
  tauto

theorem alu64Reg_yields : Yields (alu64Reg nextU64) Straight := by
  unfold alu64Reg
  refine (pick_yields nextU64 (by simp)).bind fun op hop => ?_
  refine (reg_yields nextU64).bind fun dst hdst => ?_
  refine (reg_yields nextU64).bind fun src hsrc => Yields.pure ?_
  refine straight_alu (by simp) (by simp) ?_ hdst hsrc
  simp only [List.mem_cons, List.not_mem_nil, or_false] at hop ⊢
  tauto

theorem alu32Imm_yields : Yields (alu32Imm nextU64) Straight := by
  unfold alu32Imm
  refine (pick_yields nextU64 (by simp)).bind fun op hop => ?_
  refine (reg_yields nextU64).bind fun dst hdst => ?_
  refine (range_yields nextU64 (by decide) (by decide)).bind fun imm _ => Yields.pure ?_
  refine straight_alu (by simp) (by simp) ?_ hdst (by decide)
  simp only [List.mem_cons, List.not_mem_nil, or_false] at hop ⊢
  tauto

theorem mov64Imm_yields {dst : U8} {lo hi : I64} (hd : dst.toNat < 10)
    (hlt : lo.toInt < hi.toInt) (hspan : hi.toInt - lo.toInt < 2 ^ 63) :
    Yields (mov64Imm nextU64 dst lo hi) Straight := by
  unfold mov64Imm
  refine (range_yields nextU64 hlt hspan).bind fun imm _ => Yields.pure ?_
  exact straight_alu (by simp) (by simp) (by simp) hd (by decide)

/-- The slot decodes to an instruction that may stand at `i` of `remaining` positions before the
final `Exit`, wherever these begin. -/
def FitsAt (remaining i : ℕ) (r : RawInsn) : Prop :=
  ∃ insn, r.DecodesTo insn ∧ ∀ start, Generated (start + remaining + 1) (start + i) insn

omit [Profile] in
theorem Straight.fitsAt {r : RawInsn} (h : Straight r) (remaining i : ℕ) :
    FitsAt remaining i r := by
  obtain ⟨insn, hdec, hgen⟩ := h
  exact ⟨insn, hdec, fun start => hgen _ _⟩

/-- A branch leads forward, at most to the final `Exit`. -/
theorem branchOrMov_yields {remaining i : ℕ} (hi : i < remaining) :
    Yields (branchOrMov nextU64 remaining i) (FitsAt remaining i) := by
  unfold branchOrMov
  refine (Yields.lift (meets_usizeSub hi.le)).bind fun spaceLeft hspace => ?_
  subst hspace
  split_ifs with hroom
  · refine (Yields.lift (meets_usizeSub (by omega))).bind fun room hroom' => ?_
    subst hroom'
    have htop : (BitVec.ofNat 64 (min (remaining - i - 1) 5)).toInt =
        (min (remaining - i - 1) 5 : ℕ) := by
      rw [BitVec.toInt_eq_toNat_of_lt] <;> rw [BitVec.toNat_ofNat] <;> omega
    have hone : (1 : I64).toInt = 1 := by decide
    refine (range_yields nextU64 (by omega) (by omega)).bind fun off hoff => ?_
    refine (pick_yields nextU64 (by simp)).bind fun op hop => ?_
    refine (reg_yields nextU64).bind fun dst hdst => ?_
    refine (range_yields nextU64 (by decide) (by decide)).bind fun imm _ => Yields.pure ?_
    obtain ⟨op', r, source, hdec⟩ := @decodesTo_jmpCond _ _ (off.setWidth 16) (imm.setWidth 32)
      (jmpOpcode_of_mem op hop) hdst
    refine ⟨_, hdec, fun start => ?_⟩
    have hnonneg := toInt_eq_of_nonneg (v := off) (by omega)
    have hoff16 : (off.setWidth 16).toInt = off.toNat := by
      rw [BitVec.toInt_eq_toNat_of_lt] <;> rw [BitVec.toNat_setWidth] <;> omega
    refine .jmpCond (q := start + i + 1 + off.toNat) ?_ (by omega) (by omega)
    unfold IsTarget
    omega
  · exact (mov64Imm_yields nextU64 (by decide) (by decide) (by decide)).imp fun r hr =>
      hr.fitsAt _ _

/-- **One random instruction.** -/
theorem randomInsn_yields {remaining i : ℕ} (hi : i < remaining) :
    Yields (randomInsn nextU64 remaining i) (FitsAt remaining i) := by
  unfold randomInsn
  refine (Yields.draw nextU64).bind fun x _ => ?_
  dsimp only
  split_ifs
  · exact (alu64Imm_yields nextU64).imp fun r hr => hr.fitsAt _ _
  · exact (alu64Reg_yields nextU64).imp fun r hr => hr.fitsAt _ _
  · exact (alu32Imm_yields nextU64).imp fun r hr => hr.fitsAt _ _
  · refine (reg_yields nextU64).bind fun dst hdst => ?_
    exact (mov64Imm_yields nextU64 hdst (by decide) (by decide)).imp fun r hr => hr.fitsAt _ _
  · exact branchOrMov_yields nextU64 hi

end Kinds

/-! ### The program -/

/-- The slots decode one by one to instructions that may stand where they are in a generated
program of length `len`. -/
structure GeneratedSlots (len : ℕ) (raw : List RawInsn) (insns : List Insn) : Prop where
  decodes : List.Forall₂ RawInsn.DecodesTo raw insns
  generated : ∀ (p : ℕ) (insn : Insn), insns[p]? = some insn → Generated len p insn

/-- The slots decode one by one; the last instruction is `Exit`, the others are `Generated`. -/
structure GeneratedProgram (raw : List RawInsn) (insns : List Insn) : Prop where
  decodes : List.Forall₂ RawInsn.DecodesTo raw insns
  body : ∀ (p : ℕ) (insn : Insn), insns[p]? = some insn → p + 1 < insns.length →
    Generated insns.length p insn
  last : insns[insns.length - 1]? = some .exit

theorem GeneratedSlots.nil (len : ℕ) : GeneratedSlots len [] [] :=
  ⟨.nil, fun p insn h => by cases h⟩

theorem GeneratedSlots.push {len : ℕ} {raw : List RawInsn} {insns : List Insn} {r : RawInsn}
    {insn : Insn} (h : GeneratedSlots len raw insns) (hdec : r.DecodesTo insn)
    (hgen : Generated len raw.length insn) :
    GeneratedSlots len (raw ++ [r]) (insns ++ [insn]) := by
  have hlen := h.decodes.length_eq
  refine ⟨List.rel_append h.decodes (.cons hdec .nil), fun p insn' hget => ?_⟩
  rw [List.getElem?_append] at hget
  split_ifs at hget with hlt
  · exact h.generated p insn' hget
  · have hp := (List.getElem?_eq_some_iff.1 hget).1
    obtain rfl : p = raw.length := by simp at hp; omega
    rw [hlen, Nat.sub_self] at hget
    cases hget
    exact hgen

/-- The final `Exit`. -/
theorem GeneratedSlots.exit {len : ℕ} {raw : List RawInsn} {insns : List Insn}
    (h : GeneratedSlots len raw insns) (hlen : len = raw.length + 1) :
    GeneratedProgram (raw ++ [makeRaw (bpfJmp ||| bpfExit) 0 0 0 0]) (insns ++ [.exit]) := by
  have hexit : (makeRaw (bpfJmp ||| bpfExit) 0 0 0 0).DecodesTo .exit := by
    intro raw pc hget
    unfold decodeInsn
    rw [index_of_getElem? hget]
    rfl
  have hlength := h.decodes.length_eq
  refine ⟨List.rel_append h.decodes (.cons hexit .nil), fun p insn hget hp => ?_, by simp⟩
  rw [List.length_append, List.length_singleton] at hp ⊢
  rw [List.getElem?_append_left (by omega)] at hget
  rw [← hlength, ← hlen]
  exact h.generated p insn hget

section Program

variable {ρ : Type} [Profile] (nextU64 : ρ → U64 × ρ)

/-- The slots decode to instructions that may stand anywhere in a generated program. -/
def Prologue (raw : List RawInsn) : Prop := ∃ insns, ∀ len, GeneratedSlots len raw insns

omit [Profile] in
theorem Prologue.push {raw : List RawInsn} {r : RawInsn} (h : Prologue raw) (hr : Straight r) :
    Prologue (raw ++ [r]) := by
  obtain ⟨insns, hemits⟩ := h
  obtain ⟨insn, hdec, hgen⟩ := hr
  exact ⟨insns ++ [insn], fun len => (hemits len).push hdec (hgen len _)⟩

/-- The registers that are initialised at first. -/
theorem initRegs_yields {raw : List RawInsn} (h : Prologue raw) {rs : List U8}
    (hrs : ∀ r ∈ rs, r.toNat < 10) :
    Yields (rs.foldlM (initReg nextU64) raw)
      (fun raw' => Prologue raw' ∧ raw'.length ≤ raw.length + rs.length) := by
  refine Yields.foldlM (fun k raw' => Prologue raw' ∧ raw'.length ≤ raw.length + k) ⟨h, le_rfl⟩ ?_
  rintro k r raw' hr ⟨hpro, hlen⟩
  unfold initReg
  refine (Yields.draw nextU64).bind fun x _ => ?_
  split_ifs
  · refine (mov64Imm_yields nextU64 (hrs r (List.mem_of_getElem? hr)) (by decide)
      (by decide)).bind fun insn hinsn => Yields.pure ⟨hpro.push hinsn, ?_⟩
    rw [List.length_append, List.length_singleton]
    omega
  · exact Yields.pure ⟨hpro, by omega⟩

/-- **The generator.** -/
theorem generateProgram_yields {limit : ℕ} (hlimit : limit < 2 ^ 63) :
    Yields (generateProgram nextU64 limit)
      (fun raw => raw.length ≤ max limit 11 ∧ ∃ insns, GeneratedProgram raw insns) := by
  unfold generateProgram
  refine (Yields.draw nextU64).bind fun x _ => ?_
  have hmod : x.toNat % max (limit - 2) 1 < max (limit - 2) 1 := Nat.mod_lt _ (by omega)
  refine (Yields.lift (meets_usizeAdd fun h => by omega)).bind fun n hn => ?_
  obtain ⟨-, rfl⟩ := hn
  refine (mov64Imm_yields nextU64 (by decide) (by decide) (by decide)).bind fun r0 h0 => ?_
  refine (mov64Imm_yields nextU64 (by decide) (by decide) (by decide)).bind fun r1 h1 => ?_
  have hstart : Prologue [r0, r1] := Prologue.push (Prologue.push ⟨[], GeneratedSlots.nil⟩ h0) h1
  refine (initRegs_yields nextU64 hstart (by decide)).bind fun pre hpre => ?_
  obtain ⟨⟨insns, hemits⟩, hlen⟩ := hpre
  simp only [List.length_cons, List.length_nil] at hlen
  generalize hremaining : 2 + x.toNat % max (limit - 2) 1 - pre.length - 1 = remaining
  dsimp only
  -- after `k` instructions of the random part
  let I : ℕ → List RawInsn → Prop := fun k raw =>
    raw.length = pre.length + k ∧ ∃ insns, GeneratedSlots (pre.length + remaining + 1) raw insns
  have hloop : Yields ((List.range remaining).foldlM (pushInsn nextU64 remaining) pre)
      (I (List.range remaining).length) := by
    refine Yields.foldlM I ⟨rfl, insns, hemits _⟩ ?_
    rintro k i raw hi ⟨hraw, insns, hemits⟩
    have hk : k < remaining := by simpa using (List.getElem?_eq_some_iff.1 hi).1
    rw [List.getElem?_range hk] at hi
    cases hi
    unfold pushInsn
    refine (randomInsn_yields nextU64 hk).bind fun r hr => Yields.pure ?_
    obtain ⟨insn, hdec, hgen⟩ := hr
    refine ⟨by rw [List.length_append, List.length_singleton, hraw, Nat.add_assoc], _,
      hemits.push hdec ?_⟩
    rw [hraw]
    exact hgen pre.length
  refine hloop.bind fun raw hraw => Yields.pure ?_
  obtain ⟨hraw, insns, hemits⟩ := hraw
  rw [List.length_range] at hraw
  refine ⟨?_, _, hemits.exit (by rw [hraw])⟩
  rw [List.length_append, List.length_singleton, hraw]
  omega

end Program

end NVMirror
