import NVMirror.JitIr.Listing
import NVMirror.JitRiscv.Branch

/-!
# Relocation on RISC-V

* `branch_agrees`: in every program that is emitted and finalized, the words of a branch on
  registers lead to the first word of its target or to the next word, as the interpreter jumps.
* `Relocated`: the branches are those that were emitted and lead to their targets, every other word
  is the emitted one.
* `relocated_iff`: when that is so.  The `JAL` of a conditional branch with the operation `Ja` is
  patched as if it were a conditional branch.
-/

namespace NVMirror.Riscv

open Rust Fields

/-! ### Patched words -/

/-- The instruction of the first word, with displacement `d`: a conditional branch on the same
registers, or a `JAL` that does not link. -/
def Retargets (w w' : U32) (d : ℤ) : Prop :=
  (∃ cond s1 s2 imm imm', decode w = some (.branch cond s1 s2 imm) ∧
      decode w' = some (.branch cond s1 s2 imm') ∧ 2 * imm'.toInt = d) ∨
    ∃ imm imm', decode w = some (.jal 0 imm) ∧ decode w' = some (.jal 0 imm') ∧ 2 * imm'.toInt = d

/-- Displacements that a conditional branch and a `JAL` encode alike. -/
def SameInBoth (d : ℤ) : Prop := 0 ≤ d ∧ d < 2 ^ 11 ∧ d % 32 = 0

theorem retargets_scrambled_iff {d : ℤ} {f : U32 → U32} (h : patch .branch (4 * d) = some f) :
    Retargets (jal 0 0) (f (jal 0 0)) (4 * d) ↔ SameInBoth (4 * d) := by
  obtain ⟨imm, himm, hdecode⟩ := decode_scrambled h
  have hjal : decode (jal 0 0) = some (.jal 0 0) := by decide
  have hrange : -2 ^ 12 ≤ 4 * d ∧ 4 * d < 2 ^ 12 := by
    unfold patch at h
    dsimp only at h
    split_ifs at h with hrange
    omega
  -- the pieces as numbers
  have hnat : (imm.toNat : ℤ) = 4 * d % 2 ^ 32 := by
    rw [himm, BitVec.toNat_ofInt]
    omega
  generalize hrd : field imm 1 4 ++ field imm 11 1 = rd at hdecode
  generalize himm20 : field imm 12 1 ++ (0 : BitVec 8) ++ (0 : BitVec 1) ++
    (field imm 5 6 ++ (0 : BitVec 4)) = imm20 at hdecode
  have hrdnat : rd.toNat = 2 * (imm.toNat / 2 % 16) + imm.toNat / 2 ^ 11 % 2 := by
    rw [← hrd, toNat_append_eq, toNat_field, toNat_field]
    rfl
  have himmnat : imm20.toNat =
      2 ^ 19 * (imm.toNat / 2 ^ 12 % 2) + 2 ^ 4 * (imm.toNat / 2 ^ 5 % 64) := by
    rw [← himm20, toNat_append_eq, toNat_append_eq, toNat_append_eq, toNat_append_eq, toNat_field,
      toNat_field]
    simp
    ring
  have hrdzero : rd = 0 ↔ rd.toNat = 0 := BitVec.toNat_inj.symm
  have himmint := BitVec.toInt_eq_toNat_cond imm20
  have hretargets : Retargets (jal 0 0) (f (jal 0 0)) (4 * d) ↔
      rd = 0 ∧ 2 * imm20.toInt = 4 * d := by
    constructor
    · rintro (⟨cond, s1, s2, imm, imm', hbranch, -⟩ | ⟨imm, imm', -, hjal', hd⟩)
      · rw [hjal] at hbranch
        cases hbranch
      · rw [hdecode] at hjal'
        cases hjal'
        exact ⟨rfl, hd⟩
    · rintro ⟨rfl, hd⟩
      exact Or.inr ⟨_, _, hjal, hdecode, hd⟩
  rw [hretargets, hrdzero, SameInBoth]
  split_ifs at himmint <;> omega

/-- A conditional branch before it is patched. -/
theorem decode_unpatched (funct3 : BitVec 3) {cond : Compare} (h : compareOf funct3 = some cond)
    (s1 s2 : Reg) : ∃ imm12, decode (unpatched funct3 s1 s2) = some (.branch cond s1 s2 imm12) := by
  have hzero : encodeBTypeImm 0 = BitVec.ofNat 32 0 := rfl
  have hword : unpatched funct3 s1 s2 = encodeBTypeImm 0 |||
      (bType (funct3.setWidth 32) (s1.setWidth 8) (s2.setWidth 8) 0 &&& (0x01FFF07F : U32)) := by
    rw [bType_and_mask, unpatched, bType, hzero, BitVec.zero_or, BitVec.zero_or]
  exact ⟨_, by rw [hword]; exact decode_patchedBranch funct3 h s1 s2 0⟩

variable [Profile]

/-! ### Branches on registers -/

/-- The emitter appends words, whatever it is given. -/
theorem appends_emitNode : Appends emitNode := by
  intro e e' node h
  by_cases hlabel : ∃ bb, node = .label bb
  · obtain ⟨bb, rfl⟩ := hlabel
    exact Or.inl ⟨bb, rfl, h⟩
  · have hno : ∀ bb, node ≠ .label bb := fun bb hbb => hlabel ⟨bb, hbb⟩
    obtain ⟨ws, heq, -, hne⟩ := exists_append_of_ok hno h
    exact Or.inr ⟨hno, ws, branchOf node, heq, hne⟩

/-- **Branches on registers** go to the first word of their target if the interpreter jumps, and
to the next word otherwise.  Only the scratch register changes. -/
theorem branch_agrees {ir : IrProgram} {e : RiscVEmitter} {code : List U8}
    (hemit : emitProgram .new ir = .ok e) (hcode : finalize e = .ok code) {j : ℕ} {op : JmpOp}
    (hop : op ≠ .ja) {l r : Reg} {t : BasicBlockId}
    (hj : ir.listing[j]? = some (.branch ⟨op, physOf l, .reg (physOf r), false⟩ t)) :
    ∃ i k : ℕ, ir.listing[i]? = some (.label t) ∧
      (∀ i', i < i' → ir.listing[i']? ≠ some (.label t)) ∧
      nodeOffset emitNode ir.listing (j + 1) = nodeOffset emitNode ir.listing j + 4 * k ∧
      ∀ (env : Env) (c : Cpu), ∃ c', SameOutside {23} c c' ∧
        steps (step env code) ⟨c, nodeOffset emitNode ir.listing j⟩ k =
          .ok ⟨c', if evalJmp op (c.get l) (c.get r) then nodeOffset emitNode ir.listing i
            else nodeOffset emitNode ir.listing (j + 1)⟩ := by
  obtain ⟨pre, funct3, cond, s1, s2, hws, hcond, -, hline⟩ := compareWords_eq hop l r
  have hnode : ∀ e, emitNode e (.branch ⟨op, physOf l, .reg (physOf r), false⟩ t) =
      .ok (e.append (pre ++ [unpatched funct3 s1 s2]) (some (t, .branch))) := by
    intro e
    rw [← hws]
    exact emitBranchNode_reg e op (physOf l) (physOf r) false t
  obtain ⟨i, p, q, f, hi, hlast, hiq, hjp, hnext, hf, hfetch⟩ :=
    branch_of_ok appends_emitNode hemit hcode hj hnode
  obtain ⟨imm12, hdecode, himm⟩ := patch_branch hf hcond s1 s2
  refine ⟨i, pre.length + 1, hi, hlast, by rw [hnext, hjp]; ring, fun env c => ?_⟩
  obtain ⟨c', hpre, hsame, hholds⟩ := hline c
  refine ⟨c', hsame.mono ?_, ?_⟩
  · rintro r ⟨rfl, -⟩
    rfl
  · have hat : CodeAt code (4 * p) (pre ++ [f (unpatched funct3 s1 s2)]) := hfetch
    have hpc : (nodeOffset emitNode ir.listing j : ℤ) = 4 * p := by rw [hjp]; push_cast; rfl
    rw [hpc, steps_line_branch env hpre hdecode hat, hholds, evalJmp_eq, himm, hiq, hnext]
    congr 2
    split_ifs
    · push_cast
      ring
    · push_cast
      ring

/-- Two blocks, with a bit test that leads to the second one. -/
def bitTest : IrProgram where
  blocks := [⟨⟨0⟩, [.branch ⟨.jset, physOf 10, .reg (physOf 11), false⟩ ⟨1⟩, .ret]⟩, ⟨⟨1⟩, [.ret]⟩]
  frameSize := 0

omit [Profile] in
/-- `branch_agrees` at `bitTest`. -/
theorem branch_agrees_bitTest :
    ∃ e code, @emitProgram debug .new bitTest = .ok e ∧ finalize e = .ok code ∧
      ∃ i k : ℕ, bitTest.listing[i]? = some (.label ⟨1⟩) ∧
        (∀ i', i < i' → bitTest.listing[i']? ≠ some (.label ⟨1⟩)) ∧
        nodeOffset (@emitNode debug) bitTest.listing 2 =
          nodeOffset (@emitNode debug) bitTest.listing 1 + 4 * k ∧
        ∀ (env : Env) (c : Cpu), ∃ c', SameOutside {23} c c' ∧
          steps (step env code) ⟨c, nodeOffset (@emitNode debug) bitTest.listing 1⟩ k =
            .ok ⟨c', if evalJmp .jset (c.get 10) (c.get 11) then
                nodeOffset (@emitNode debug) bitTest.listing i
              else nodeOffset (@emitNode debug) bitTest.listing 2⟩ :=
  ⟨_, _, rfl, rfl, @branch_agrees debug bitTest _ _ rfl rfl 1 .jset (by decide) 10 11 ⟨1⟩ rfl⟩

/-! ### All branches of a program -/

/-- The words of the program, with the branches patched. -/
structure Relocated (W : IrNode → List U32) (ir : IrProgram) (ws : List U32) : Prop where
  length_eq : ws.length = (ir.code.flatMap W).length
  /-- The last word of a branch leads to the first word of its target. -/
  branch : ∀ {j : ℕ} {node : IrNode} {t : BasicBlockId} {k : RelocKind},
    ir.code[j]? = some node → branchOf node = some (t, k) → ∃ ip w w', ir.entry t = some ip ∧
      (W node)[(W node).length - 1]? = some w ∧
      ws[wordPos W ir.code j + ((W node).length - 1)]? = some w' ∧
      Retargets w w' (displacement W ir.code j node ip)
  /-- Every other word. -/
  other : ∀ {j : ℕ} {node : IrNode}, ir.code[j]? = some node → ∀ i < (W node).length,
    branchOf node = none ∨ i + 1 < (W node).length →
      ws[wordPos W ir.code j + i]? = (ir.code.flatMap W)[wordPos W ir.code j + i]?

variable {ir : IrProgram} {W : IrNode → List U32} {ws : List U32} {limit : ℕ}

/-- The registers of a conditional branch have numbers below 32. -/
def BranchCond.OnRegisters (cond : BranchCond) : Prop :=
  (∃ l, cond.lhs = physOf l) ∧ ∀ p, cond.rhs = .reg p → ∃ s, p = physOf s

/-- **The last word of a branch** leads to its target, but for the operation `Ja`. -/
theorem last_word (hem : Emission emitNode ir.code W branchOf limit) {node : IrNode}
    (hnode : node ∈ ir.code) (hregs : ∀ cond t, node = .branch cond t → BranchCond.OnRegisters cond)
    {t : BasicBlockId} {k : RelocKind} (hB : branchOf node = some (t, k)) :
    ∃ pre w, W node = pre ++ [w] ∧ ∀ (d : ℤ) (f : U32 → U32), patch k (4 * d) = some f →
      (Retargets w (f w) (4 * d) ↔
        ∀ cond, node = .branch cond t → cond.op = .ja → SameInBoth (4 * d)) := by
  cases node with
  | jump t' =>
    cases hB
    have hemits : Emits emitNode limit (.jump t) [jal 0 0] (some (t, .jal)) := fun e _ => by
      rw [emitNode, Emitter.pushRelocation_emit32]
      rfl
    refine ⟨[], jal 0 0, hem.words_eq hnode hemits, fun d f hf => ?_⟩
    obtain ⟨imm20, hdecode, hd⟩ := patch_jal hf
    have hjal : decode (jal 0 0) = some (.jal 0 0) := by decide
    refine ⟨fun _ cond heq => ?_, fun _ => Or.inr ⟨_, _, hjal, hdecode, hd⟩⟩
    cases heq
  | branch cond t' =>
    cases hB
    obtain ⟨⟨l, hl⟩, hrhs⟩ := hregs cond t rfl
    rcases cond with ⟨op, lhs, rhs, is32bit⟩
    dsimp only at hl hrhs
    subst hl
    by_cases hop : op = .ja
    · subst hop
      obtain ⟨pre, hemits⟩ : ∃ pre, Emits emitNode limit (.branch ⟨.ja, physOf l, rhs, is32bit⟩ t)
          (pre ++ [jal 0 0]) (some (t, .branch)) := by
        cases rhs with
        | reg p => exact ⟨[], fun e _ => emitBranchNode_reg e .ja (physOf l) p is32bit t⟩
        | imm v =>
          obtain ⟨ws, hload, -⟩ := emitLoadImm64_ok (ε := RiscVEmitError) tmp v
          exact ⟨ws, fun e _ => emitBranchNode_imm e .ja (physOf l) hload is32bit t⟩
      refine ⟨pre, jal 0 0, hem.words_eq hnode hemits, fun d f hf => ?_⟩
      rw [retargets_scrambled_iff hf]
      exact ⟨fun h _ _ _ => h, fun h => h _ rfl rfl⟩
    · obtain ⟨pre, funct3, compare, s1, s2, hcompare, -, hemit⟩ :=
        branch_words (ε := RiscVEmitError) hop l hrhs is32bit t
      refine ⟨pre, _, hem.words_eq hnode fun e _ => hemit e, fun d f hf => ?_⟩
      obtain ⟨imm12, hdecode⟩ := decode_unpatched funct3 hcompare s1 s2
      obtain ⟨imm12', hdecode', hd⟩ := patch_branch hf hcompare s1 s2
      refine ⟨fun _ cond heq hja => ?_, fun _ => ?_⟩
      · cases heq
        exact absurd hja hop
      · exact Or.inl ⟨compare, s1, s2, _, _, hdecode, hdecode', hd⟩
  | _ => cases hB

/-- **When relocation is exact**: every conditional branch with the operation `Ja` has a
displacement that a `JAL` encodes in the same bits. -/
theorem relocated_iff (hem : Emission emitNode ir.code W branchOf limit)
    (himg : Image W branchOf patch ir ws)
    (hregs : ∀ cond t, .branch cond t ∈ ir.code → BranchCond.OnRegisters cond) :
    Relocated W ir ws ↔ ∀ (j : ℕ) cond t ip, ir.code[j]? = some (.branch cond t) →
      cond.op = .ja → ir.entry t = some ip →
        SameInBoth (displacement W ir.code j (.branch cond t) ip) := by
  -- what stands at the branch of a node
  have hbranch : ∀ {j : ℕ} {node : IrNode} {t : BasicBlockId} {k : RelocKind},
      ir.code[j]? = some node → branchOf node = some (t, k) → ∃ ip w w', ir.entry t = some ip ∧
        (W node)[(W node).length - 1]? = some w ∧
        ws[wordPos W ir.code j + ((W node).length - 1)]? = some w' ∧
        (Retargets w w' (displacement W ir.code j node ip) ↔
          ∀ cond, node = .branch cond t → cond.op = .ja →
            SameInBoth (displacement W ir.code j node ip)) := by
    intro j node t k hj hB
    have hmem := List.mem_of_getElem? hj
    obtain ⟨pre, w, hW, hretargets⟩ := last_word hem hmem
      (fun cond t' heq => hregs cond t' (by rw [← heq]; exact hmem)) hB
    have hlen : (W node).length - 1 = pre.length := by
      rw [hW, List.length_append, List.length_singleton, Nat.add_sub_cancel]
    have hw : (W node)[(W node).length - 1]? = some w := by
      rw [hlen, hW, List.getElem?_concat_length]
    have hlt := (List.getElem?_eq_some_iff.1 hw).1
    obtain ⟨ip, f, hentry, hf, hword⟩ := himg.branch hj hB (by omega) hw
    exact ⟨ip, w, f w, hentry, hw, hword, hretargets _ f hf⟩
  constructor
  · intro hrel j cond t ip hj hop hentry
    obtain ⟨ip₁, w₁, w₁', hentry₁, hw₁, hword₁, hiff⟩ := hbranch hj rfl
    obtain ⟨ip₂, w₂, w₂', hentry₂, hw₂, hword₂, hretargets⟩ := hrel.branch hj rfl
    cases hentry.symm.trans hentry₁
    cases hentry.symm.trans hentry₂
    cases hw₁.symm.trans hw₂
    cases hword₁.symm.trans hword₂
    exact hiff.1 hretargets cond rfl hop
  · intro hall
    refine ⟨?_, fun {j node t k} hj hB => ?_, fun {j node} hj i hi hkeep => ?_⟩
    · rw [himg.length_eq, wordPos, List.take_length]
    · obtain ⟨ip, w, w', hentry, hw, hword, hiff⟩ := hbranch hj hB
      refine ⟨ip, w, w', hentry, hw, hword, hiff.2 ?_⟩
      rintro cond rfl hop
      exact hall j cond t ip hj hop hentry
    · rw [himg.word hj i hi hkeep, flatMap_getElem? hj hi]

end NVMirror.Riscv
