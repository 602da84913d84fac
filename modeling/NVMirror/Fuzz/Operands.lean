import NVMirror.EbpfCore.Flow
import NVMirror.Fuzz.Templates

/-!
# The operands of generated programs

The instructions the generator emits use registers below `R10` only, and no bit tests (`Plain`).

* `RawInsn.Template`: the slots of the generator.  `Template.plain`: what they decode to.
* `generateProgram_templates`: every slot of a generated program is one.
-/

namespace NVMirror

open Rust

/-- The opcode of an arithmetic instruction, of a conditional jump other than a bit test, or of
`Exit`. -/
def PlainOpcode (opcode : U8) : Prop :=
  (opcode &&& 0x07 = bpfAlu64 ∨ opcode &&& 0x07 = bpfAlu) ∧ opcode &&& 0xf0 ≠ bpfEnd ∨
    opcode &&& 0x07 = bpfJmp ∧ opcode &&& 0xf0 ≠ bpfJa ∧ opcode &&& 0xf0 ≠ bpfCall ∧
      JmpOp.fromOpcodeBits opcode ≠ some .jset

instance (opcode : U8) : Decidable (PlainOpcode opcode) :=
  inferInstanceAs (Decidable (_ ∨ _))

/-- A slot of the generator. -/
structure RawInsn.Template (r : RawInsn) : Prop where
  dst : r.dstReg.toNat < 10
  src : r.srcReg.toNat < 10
  opcode : PlainOpcode r.opcode

/-- The instruction does not read `R10`, and is no bit test. -/
structure Insn.Plain (insn : Insn) : Prop where
  reads : BpfReg.r10 ∉ insn.reads
  bitTest : ∀ {op dst src off}, insn = .jmpCond op dst src off → op ≠ .jset

/-! ### Decoding -/

section Decoding

variable {r : RawInsn} {pc : ℕ} {insn : Insn}

theorem decodeReg_ne_r10 {raw : U8} {reg : BpfReg} (hlt : raw.toNat < 10)
    (h : decodeReg raw pc = .ok reg) : reg ≠ BpfReg.r10 := by
  obtain ⟨reg', hne, hreg'⟩ := decodeReg_of_lt hlt
  rw [hreg' pc] at h
  cases h
  exact hne

theorem decodeSource_notMem {source : Source} (hlt : r.srcReg.toNat < 10)
    (h : decodeSource r pc = .ok source) : BpfReg.r10 ∉ source.reads := by
  unfold decodeSource at h
  split_ifs at h
  · obtain ⟨reg, hreg, h⟩ := bind_eq_ok.1 h
    cases h
    exact fun hmem => decodeReg_ne_r10 hlt hreg hmem.symm
  · cases h
    exact fun hmem => hmem

/-- An arithmetic instruction. -/
theorem decodeAlu_plain {is64 : Bool} (hd : r.dstReg.toNat < 10) (hs : r.srcReg.toNat < 10)
    (hend : r.opcode &&& 0xf0 ≠ bpfEnd) (h : decodeAlu r pc is64 = .ok insn) : insn.Plain := by
  obtain ⟨dst, hdst, h⟩ := bind_eq_ok.1 h
  rw [if_neg hend] at h
  obtain ⟨op, -, h⟩ := bind_eq_ok.1 h
  obtain ⟨src, hsrc, h⟩ := bind_eq_ok.1 h
  have hne := decodeReg_ne_r10 hd hdst
  have hreads : BpfReg.r10 ∉ src.reads ∪ if op = .mov then ∅ else {dst} := by
    rintro (hmem | hmem)
    · exact decodeSource_notMem hs hsrc hmem
    · split_ifs at hmem
      · exact hmem
      · exact hne hmem.symm
  cases is64 <;> cases h <;> exact ⟨hreads, fun h => by cases h⟩

/-- A jump, or `Exit`. -/
theorem decodeJmp_plain (hd : r.dstReg.toNat < 10) (hs : r.srcReg.toNat < 10)
    (hja : r.opcode &&& 0xf0 ≠ bpfJa) (hcall : r.opcode &&& 0xf0 ≠ bpfCall)
    (hjset : JmpOp.fromOpcodeBits r.opcode ≠ some .jset) (h : decodeJmp r pc = .ok insn) :
    insn.Plain := by
  unfold decodeJmp at h
  dsimp only at h
  rw [if_neg hja, if_neg hcall] at h
  split_ifs at h
  · cases h
    have hne : BpfReg.r10 ≠ BpfReg.r0 := by decide
    exact ⟨hne, fun h => by cases h⟩
  · obtain ⟨op, hop, h⟩ := bind_eq_ok.1 h
    obtain ⟨dst, hdst, h⟩ := bind_eq_ok.1 h
    obtain ⟨src, hsrc, h⟩ := bind_eq_ok.1 h
    cases h
    refine ⟨?_, fun heq => ?_⟩
    · rintro (hmem | hmem)
      · exact decodeReg_ne_r10 hd hdst hmem.symm
      · exact decodeSource_notMem hs hsrc hmem
    · cases heq
      rintro rfl
      exact hjset (okOr_eq_ok.1 hop)

/-- What a slot of the generator decodes to. -/
theorem RawInsn.Template.plain (h : r.Template) (hdec : r.DecodesTo insn) : insn.Plain := by
  obtain ⟨hd, hs, hop⟩ := h
  obtain ⟨r', hr', hone⟩ := bind_eq_ok.1 (hdec [r] 0 rfl)
  cases hr'
  dsimp only at hone
  rcases hop with ⟨hcls | hcls, hend⟩ | ⟨hcls, hja, hcall, hjset⟩
  · rw [if_pos (show r.insnClass = bpfAlu64 from hcls)] at hone
    obtain ⟨insn', halu, hone⟩ := bind_eq_ok.1 hone
    cases hone
    exact decodeAlu_plain hd hs hend halu
  · have hne : r.insnClass ≠ bpfAlu64 := by
      rw [RawInsn.insnClass, hcls]
      decide
    rw [if_neg hne, if_pos (show r.insnClass = bpfAlu from hcls)] at hone
    obtain ⟨insn', halu, hone⟩ := bind_eq_ok.1 hone
    cases hone
    exact decodeAlu_plain hd hs hend halu
  · have hne : r.insnClass ≠ bpfAlu64 ∧ r.insnClass ≠ bpfAlu := by
      rw [RawInsn.insnClass, hcls]
      decide
    rw [if_neg hne.1, if_neg hne.2, if_pos (show r.insnClass = bpfJmp from hcls)] at hone
    obtain ⟨insn', hjmp, hone⟩ := bind_eq_ok.1 hone
    cases hone
    exact decodeJmp_plain hd hs hja hcall hjset hjmp

end Decoding

/-! ### Kinds of instructions -/

section Kinds

variable {ρ : Type} [Profile] (nextU64 : ρ → U64 × ρ)

omit [Profile] in
theorem template_makeRaw {opcode dst src : U8} {off : I16} {imm : I32} (hop : PlainOpcode opcode)
    (hd : dst.toNat < 10) (hs : src.toNat < 10) : (makeRaw opcode dst src off imm).Template := by
  obtain ⟨hdst, hsrc⟩ := @fields_makeRaw opcode dst src off imm hd hs
  refine ⟨?_, ?_, hop⟩
  · rw [hdst]
    exact hd
  · rw [hsrc]
    exact hs

omit [Profile] in
theorem plainOpcode_alu : ∀ cls ∈ [bpfAlu64, bpfAlu], ∀ m ∈ [bpfK, bpfX],
    ∀ op ∈ [bpfAdd, bpfSub, bpfMul, bpfOr, bpfAnd, bpfXor, bpfLsh, bpfRsh, bpfMov],
      PlainOpcode (cls ||| op ||| m) := by
  decide +kernel

omit [Profile] in
theorem plainOpcode_jmp : ∀ op ∈ [bpfJeq, bpfJne, bpfJgt, bpfJge, bpfJlt, bpfJle],
    PlainOpcode (bpfJmp ||| op ||| bpfK) := by
  decide +kernel

theorem alu64Imm_templates : Yields (alu64Imm nextU64) RawInsn.Template := by
  unfold alu64Imm
  refine (pick_yields nextU64 (by simp)).bind fun op hop => ?_
  refine (reg_yields nextU64).bind fun dst hdst => ?_
  have himm : Yields (alu64Operand nextU64 op) fun _ => True := by
    unfold alu64Operand
    split_ifs <;> exact (range_yields nextU64 (by decide) (by decide)).imp fun _ _ => trivial
  refine himm.bind fun imm _ => Yields.pure ?_
  refine template_makeRaw (plainOpcode_alu _ (by simp) _ (by simp) op ?_) hdst (by decide)
  simp only [List.mem_cons, List.not_mem_nil, or_false] at hop ⊢
  tauto

theorem alu64Reg_templates : Yields (alu64Reg nextU64) RawInsn.Template := by
  unfold alu64Reg
  refine (pick_yields nextU64 (by simp)).bind fun op hop => ?_
  refine (reg_yields nextU64).bind fun dst hdst => ?_
  refine (reg_yields nextU64).bind fun src hsrc => Yields.pure ?_
  refine template_makeRaw (plainOpcode_alu _ (by simp) _ (by simp) op ?_) hdst hsrc
  simp only [List.mem_cons, List.not_mem_nil, or_false] at hop ⊢
  tauto

theorem alu32Imm_templates : Yields (alu32Imm nextU64) RawInsn.Template := by
  unfold alu32Imm
  refine (pick_yields nextU64 (by simp)).bind fun op hop => ?_
  refine (reg_yields nextU64).bind fun dst hdst => ?_
  refine (range_yields nextU64 (by decide) (by decide)).bind fun imm _ => Yields.pure ?_
  refine template_makeRaw (plainOpcode_alu _ (by simp) _ (by simp) op ?_) hdst (by decide)
  simp only [List.mem_cons, List.not_mem_nil, or_false] at hop ⊢
  tauto

theorem mov64Imm_templates {dst : U8} {lo hi : I64} (hd : dst.toNat < 10)
    (hlt : lo.toInt < hi.toInt) (hspan : hi.toInt - lo.toInt < 2 ^ 63) :
    Yields (mov64Imm nextU64 dst lo hi) RawInsn.Template := by
  unfold mov64Imm
  refine (range_yields nextU64 hlt hspan).bind fun imm _ => Yields.pure ?_
  exact template_makeRaw (plainOpcode_alu _ (by simp) _ (by simp) bpfMov (by simp)) hd (by decide)

theorem branchOrMov_templates {remaining i : ℕ} (hi : i < remaining) :
    Yields (branchOrMov nextU64 remaining i) RawInsn.Template := by
  unfold branchOrMov
  refine (Yields.lift (meets_usizeSub hi.le)).bind fun spaceLeft hspace => ?_
  subst hspace
  split_ifs with hroom
  · refine (Yields.lift (meets_usizeSub (by omega))).bind fun room hroom' => ?_
    subst hroom'
    have htop : (BitVec.ofNat 64 (min (remaining - i - 1) 5)).toInt =
        (min (remaining - i - 1) 5 : ℕ) := by
      rw [BitVec.toInt_eq_toNat_of_lt] <;> rw [BitVec.toNat_ofNat] <;> omega
    have hone : (1 : I64).toInt = 1 := by decide
    refine (range_yields nextU64 (by omega) (by omega)).bind fun off _ => ?_
    refine (pick_yields nextU64 (by simp)).bind fun op hop => ?_
    refine (reg_yields nextU64).bind fun dst hdst => ?_
    refine (range_yields nextU64 (by decide) (by decide)).bind fun imm _ => Yields.pure ?_
    exact template_makeRaw (plainOpcode_jmp op hop) hdst (by decide)
  · exact mov64Imm_templates nextU64 (by decide) (by decide) (by decide)

theorem randomInsn_templates {remaining i : ℕ} (hi : i < remaining) :
    Yields (randomInsn nextU64 remaining i) RawInsn.Template := by
  unfold randomInsn
  refine (Yields.draw nextU64).bind fun x _ => ?_
  dsimp only
  split_ifs
  · exact alu64Imm_templates nextU64
  · exact alu64Reg_templates nextU64
  · exact alu32Imm_templates nextU64
  · refine (reg_yields nextU64).bind fun dst hdst => ?_
    exact mov64Imm_templates nextU64 hdst (by decide) (by decide)
  · exact branchOrMov_templates nextU64 hi

/-! ### The program -/

/-- All slots are templates. -/
def Templates (raw : List RawInsn) : Prop := ∀ r ∈ raw, r.Template

omit [Profile] in
theorem Templates.push {raw : List RawInsn} {r : RawInsn} (h : Templates raw) (hr : r.Template) :
    Templates (raw ++ [r]) := by
  intro r' hmem
  rcases List.mem_append.1 hmem with hmem | hmem
  · exact h r' hmem
  · rw [List.mem_singleton.1 hmem]
    exact hr

/-- **Every slot of a generated program** is a template. -/
theorem generateProgram_templates {limit : ℕ} (hlimit : limit < 2 ^ 63) :
    Yields (generateProgram nextU64 limit) Templates := by
  unfold generateProgram
  refine (Yields.draw nextU64).bind fun x _ => ?_
  have hmod : x.toNat % max (limit - 2) 1 < max (limit - 2) 1 := Nat.mod_lt _ (by omega)
  refine (Yields.lift (meets_usizeAdd fun h => by omega)).bind fun n _ => ?_
  refine (mov64Imm_templates nextU64 (by decide) (by decide) (by decide)).bind fun r0 h0 => ?_
  refine (mov64Imm_templates nextU64 (by decide) (by decide) (by decide)).bind fun r1 h1 => ?_
  have hstart : Templates [r0, r1] := by
    intro r hr
    rcases List.mem_pair.1 hr with rfl | rfl
    · exact h0
    · exact h1
  have hinit : Yields ([2, 3, 4, 5, 6, 7, 8, 9].foldlM (initReg nextU64) [r0, r1])
      Templates := by
    refine Yields.foldlM (fun _ => Templates) hstart ?_
    intro k reg raw hreg hraw
    have hall : ∀ reg ∈ ([2, 3, 4, 5, 6, 7, 8, 9] : List U8), reg.toNat < 10 := by decide
    unfold initReg
    refine (Yields.draw nextU64).bind fun x _ => ?_
    split_ifs
    · refine (mov64Imm_templates nextU64 (hall reg (List.mem_of_getElem? hreg)) (by decide)
        (by decide)).bind fun r hr => Yields.pure ?_
      exact hraw.push hr
    · exact Yields.pure hraw
  refine hinit.bind fun raw hraw => ?_
  dsimp only
  generalize n - raw.length - 1 = remaining
  have hloop : Yields ((List.range remaining).foldlM (pushInsn nextU64 remaining) raw)
      Templates := by
    refine Yields.foldlM (fun _ => Templates) hraw ?_
    intro k i raw hi hraw
    have hk : k < remaining := by simpa using (List.getElem?_eq_some_iff.1 hi).1
    rw [List.getElem?_range hk] at hi
    cases hi
    unfold pushInsn
    exact (randomInsn_templates nextU64 hk).bind fun r hr => Yields.pure (hraw.push hr)
  refine hloop.bind fun raw hraw => Yields.pure (hraw.push ?_)
  exact template_makeRaw (by decide) (by decide) (by decide)

end Kinds

end NVMirror
