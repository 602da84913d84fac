import NVMirror.JitAarch64.Emit
import NVMirror.JitIr.Emission

/-!
# The AArch64 words of a node

`emitNode_emits`: the AArch64 emitter never fails on a node, and the words it emits depend on the
node only.
-/

namespace NVMirror.Aarch64

open Rust

/-! ### Words -/

/-- Bits `16 * i` to `16 * i + 15`. -/
def chunk (imm : U64) (i : ℕ) : U16 := (imm >>> (16 * i)).setWidth 16

theorem chunk_eq (imm : U64) (i : ℕ) :
    ((imm >>> (16 * i)) &&& 0xFFFF).setWidth 16 = chunk imm i := by
  ext j hj
  unfold chunk
  interval_cases j <;> simp

/-- The `MOVK` of a chunk. -/
def movkChunk (dst : PhysReg) (imm : U64) (i : ℕ) : List U32 :=
  if chunk imm i ≠ 0 then [movkX dst.num (chunk imm i) (BitVec.ofNat 8 i)] else []

/-- Chunks above the last non-zero one are zero, so the bound on the loop makes no difference. -/
theorem emitLoadImm64_eq (dst : PhysReg) (imm : U64) :
    emitLoadImm64 dst imm = movzX dst.num (chunk imm 0) 0 ::
      (movkChunk dst imm 1 ++ movkChunk dst imm 2 ++ movkChunk dst imm 3) := by
  have h0 := chunk_eq imm 0
  have h1 := chunk_eq imm 1
  have h2 := chunk_eq imm 2
  have h3 := chunk_eq imm 3
  simp only [Nat.mul_zero, Nat.reduceMul, Nat.mul_one, BitVec.ushiftRight_zero] at h0 h1 h2 h3
  unfold emitLoadImm64 movkChunk
  rw [h0, h1, h2, h3]
  by_cases c1 : chunk imm 1 = 0#16 <;> by_cases c2 : chunk imm 2 = 0#16 <;>
    by_cases c3 : chunk imm 3 = 0#16 <;> by_cases c0 : chunk imm 0 = 0#16 <;>
    simp [c0, c1, c2, c3, List.zipIdx]

theorem length_emitLoadImm64 (dst : PhysReg) (imm : U64) : (emitLoadImm64 dst imm).length ≤ 4 := by
  have hle : ∀ i, (movkChunk dst imm i).length ≤ 1 := by
    intro i
    unfold movkChunk
    split_ifs <;> simp
  have h1 := hle 1
  have h2 := hle 2
  have h3 := hle 3
  rw [emitLoadImm64_eq, List.length_cons, List.length_append, List.length_append]
  omega

theorem length_emitAlu32Node_reg (op : AluOp) (dst rs : PhysReg) :
    0 < (emitAlu32Node op dst (.reg rs)).length ∧
      (emitAlu32Node op dst (.reg rs)).length ≤ 2 := by
  cases op <;> · rw [emitAlu32Node]; simp

theorem length_emitAlu32Node (op : AluOp) (dst : PhysReg) (src : Operand) :
    0 < (emitAlu32Node op dst src).length ∧ (emitAlu32Node op dst src).length ≤ 6 := by
  cases src with
  | reg rs =>
    have := length_emitAlu32Node_reg op dst rs
    omega
  | imm v =>
    have hfall : 0 < (emitLoadImm64 tmp v ++ emitAlu32Node op dst (.reg tmp)).length ∧
        (emitLoadImm64 tmp v ++ emitAlu32Node op dst (.reg tmp)).length ≤ 6 := by
      have h1 := length_emitLoadImm64 tmp v
      have h2 := length_emitAlu32Node_reg op dst tmp
      rw [List.length_append]
      omega
    cases op with
    | mov =>
      rw [emitAlu32Node]
      split_ifs <;> simp
    | neg =>
      rw [emitAlu32Node]
      simp
    | _ =>
      rw [emitAlu32Node]
      · split_ifs <;> first | exact hfall | simp
      all_goals simp

section

variable {ε : Type} [Profile]

/-- The subtractions in `LSL` do not overflow. -/
theorem lslXImm_eq (rd rn : U8) (v : U64) :
    let shift := (v &&& 63).setWidth 8
    lslXImm (ε := ε) rd rn shift =
      .ok (0xD3400000 ||| (((64 - shift) &&& 63).setWidth 32 <<< 16) |||
        (((63 - shift) &&& 63).setWidth 32 <<< 10) ||| (rn.setWidth 32 <<< 5) |||
        rd.setWidth 32) := by
  have hle : (v &&& 63).toNat ≤ 63 := by
    rw [BitVec.toNat_and]
    exact Nat.and_le_right
  have hshift : ((v &&& 63).setWidth 8).toNat ≤ 63 := by
    rw [BitVec.toNat_setWidth]
    exact (Nat.mod_le _ _).trans hle
  have hsub : ∀ c : U8, 63 ≤ c.toNat →
      BitVec.usubOverflow c ((v &&& 63).setWidth 8) = false := by
    intro c hc
    rw [BitVec.usubOverflow, decide_eq_false_iff_not]
    omega
  dsimp only
  unfold lslXImm subU
  rw [overflowing_of_not (hsub 64 (by decide)), ok_bind, overflowing_of_not (hsub 63 (by decide)),
    ok_bind]
  rfl

/-- The register forms do not fall back. -/
theorem emitAlu64Node_reg (op : AluOp) (dst rs : PhysReg) :
    ∃ ws, emitAlu64Node (ε := ε) op dst (.reg rs) = .ok ws ∧ 0 < ws.length ∧ ws.length ≤ 2 := by
  cases op <;> · rw [emitAlu64Node]; exact ⟨_, rfl, by simp⟩

theorem emitAlu64Node_ok (op : AluOp) (dst : PhysReg) (src : Operand) :
    ∃ ws, emitAlu64Node (ε := ε) op dst src = .ok ws ∧ 0 < ws.length ∧ ws.length ≤ 6 := by
  cases src with
  | reg rs =>
    obtain ⟨ws, hws, hpos, hlen⟩ := emitAlu64Node_reg op dst rs
    exact ⟨ws, hws, hpos, by omega⟩
  | imm v =>
    have himm := length_emitLoadImm64 tmp v
    obtain ⟨ws, hws, hpos, hlen⟩ := emitAlu64Node_reg (ε := ε) op dst tmp
    have hfall : ∃ ws', (do
        let ws' ← emitAlu64Node (ε := ε) op dst (.reg tmp)
        pure (emitLoadImm64 tmp v ++ ws')) = .ok ws' ∧ 0 < ws'.length ∧ ws'.length ≤ 6 := by
      rw [hws]
      exact ⟨_, rfl, by rw [List.length_append]; omega⟩
    cases op with
    | lsh =>
      rw [emitAlu64Node, lslXImm_eq]
      exact ⟨_, rfl, by simp⟩
    | mov =>
      rw [emitAlu64Node]
      exact ⟨_, rfl, by rw [emitLoadImm64]; simp, by have := length_emitLoadImm64 dst v; omega⟩
    | rsh | arsh | neg =>
      rw [emitAlu64Node]
      exact ⟨_, rfl, by simp⟩
    | _ =>
      rw [emitAlu64Node]
      · split_ifs <;> first | exact ⟨_, rfl, by simp⟩ | exact hfall
      all_goals simp

/-- The frame size can be negated: without overflow checks always, with them unless it is the
least integer. -/
def FrameNegates (frameSize : U16) : Prop := Profile.overflowChecks → frameSize ≠ 0x8000

theorem negS_frame {frameSize : U16} (h : FrameNegates frameSize) :
    negS (ε := ε) frameSize = .ok (-frameSize) := by
  by_cases hc : Profile.overflowChecks
  · have hover : BitVec.negOverflow frameSize = false := by
      rw [BitVec.negOverflow]
      refine beq_eq_false_iff_ne.2 fun heq => h hc ?_
      exact BitVec.eq_of_toInt_eq (heq.trans (by decide))
    exact overflowing_of_not hover _
  · unfold negS overflowing
    rw [Bool.not_eq_true] at hc
    rw [hc, Bool.false_and, if_neg Bool.false_ne_true]

theorem frameNegates_of_lt {frameSize : U16} (h : frameSize.toNat < 2 ^ 15) :
    FrameNegates frameSize := by
  rintro - rfl
  exact absurd h (by decide)

theorem emitPrologue_ok {frameSize : U16} (h : FrameNegates frameSize) :
    ∃ ws, emitPrologue (ε := ε) frameSize = .ok ws ∧ ws.length = 5 := by
  unfold emitPrologue
  rw [negS_frame h, ok_bind]
  exact ⟨_, rfl, rfl⟩

end

/-! ### Nodes -/

/-- The relocation of a node. -/
def branchOf : IrNode → Option (BasicBlockId × Bool)
  | .branch _ target => some (target, true)
  | .jump target => some (target, false)
  | _ => none

theorem target_of_branchOf {node : IrNode} {t : BasicBlockId} {k : Bool}
    (h : branchOf node = some (t, k)) : node.target = some t := by
  cases node with
  | branch | jump =>
    cases h
    rfl
  | _ => cases h

/-- The words of a conditional branch, without its target. -/
def branchWords (cond : BranchCond) : List U32 :=
  let cmp := if cond.is32bit then cmpWReg else cmpXReg
  match cond.rhs with
  | .reg r => [cmp cond.lhs.num r.num, bCond (jmpopToConditionCode cond.op) 0]
  | .imm v =>
    emitLoadImm64 tmp v ++ [cmp cond.lhs.num tmp.num, bCond (jmpopToConditionCode cond.op) 0]

theorem emitBranchNode_eq (e : AArch64Emitter) (cond : BranchCond) (target : BasicBlockId) :
    emitBranchNode e cond target = e.append (branchWords cond) (some (target, true)) := by
  -- the words before the branch, then the branch
  have hlast : ∀ (ws : List U32) (w : U32),
      ((e.append ws none).emit32 w).pushRelocation (e.append ws none).currentOffset target true =
        e.append (ws ++ [w]) (some (target, true)) := by
    intro ws w
    rw [Emitter.pushRelocation_emit32, Emitter.append_append_branch _ _ (by simp)]
  rcases cond with ⟨op, lhs, rhs, is32bit⟩
  unfold emitBranchNode branchWords
  cases rhs with
  | reg r =>
    cases is32bit <;>
    · dsimp only
      simp only [if_pos, Bool.false_eq_true, if_false]
      rw [Emitter.emit32_eq e, hlast]
      rfl
  | imm v =>
    cases is32bit <;>
    · dsimp only [materializeImm]
      simp only [if_pos, Bool.false_eq_true, if_false]
      rw [Emitter.emitWords_eq, Emitter.emit32_eq (e.append _ _), Emitter.append_append, hlast,
        List.append_assoc]
      rfl

/-- Not a label, and no prologue whose frame size cannot be negated. -/
def Emittable [Profile] : IrNode → Prop
  | .label _ => False
  | .prologue frameSize => FrameNegates frameSize
  | _ => True

theorem emittable_of_not_label [Profile] {node : IrNode} (hno : ∀ bb, node ≠ .label bb)
    (hframe : ∀ frameSize, node = .prologue frameSize → FrameNegates frameSize) :
    Emittable node := by
  cases node with
  | label bb => exact hno bb rfl
  | prologue frameSize => exact hframe frameSize rfl
  | _ => trivial

theorem emittable_of_inBlock [Profile] {node : IrNode} (h : node.InBlock) : Emittable node := by
  cases node with
  | label bb => exact h
  | prologue frameSize => exact frameNegates_of_lt h
  | _ => trivial

/-- **The emitter never fails**, and emits at most eight words for a node. -/
theorem emitNode_emits [Profile] {node : IrNode} (h : Emittable node) :
    ∃ ws, (∀ limit, Emits emitNode limit node ws (branchOf node)) ∧ ws.length ≤ 8 ∧
      (branchOf node ≠ none → ws ≠ []) := by
  have hwords : ∀ ws, ws.length ≤ 8 → branchOf node = none →
      (∀ e, emitNode e node = .ok (e.emitWords ws)) →
      ∃ ws, (∀ limit, Emits emitNode limit node ws (branchOf node)) ∧ ws.length ≤ 8 ∧
        (branchOf node ≠ none → ws ≠ []) := by
    intro ws hlen hbranch hemit
    refine ⟨ws, fun _ e _ => ?_, hlen, fun hne => absurd hbranch hne⟩
    rw [hemit, Emitter.emitWords_eq, hbranch]
  cases node with
  | alu64 op dst src =>
    obtain ⟨ws, hws, -, hlen⟩ := emitAlu64Node_ok (ε := AArch64EmitError) op dst src
    exact hwords ws (by omega) rfl fun e => by rw [emitNode, hws]; rfl
  | alu32 op dst src =>
    have hlen := length_emitAlu32Node op dst src
    exact hwords _ (by omega) rfl fun e => rfl
  | load width dst base off =>
    exact hwords _ (by cases width <;> simp [emitLoadNode]) rfl fun e => rfl
  | store width base src off =>
    exact hwords _ (by cases width <;> simp [emitStoreNode]) rfl fun e => rfl
  | storeImm width base off imm =>
    have hlen := length_emitLoadImm64 tmp (imm.signExtend 64)
    refine hwords _ ?_ rfl fun e => rfl
    rw [List.length_append]
    cases width <;> simp [emitStoreNode] <;> omega
  | loadImm64 dst imm =>
    have hlen := length_emitLoadImm64 dst imm
    exact hwords _ (by omega) rfl fun e => rfl
  | branch cond target =>
    refine ⟨branchWords cond, fun _ e _ => ?_, ?_, fun _ => ?_⟩
    · rw [emitNode, emitBranchNode_eq]
      rfl
    · rcases cond with ⟨op, lhs, rhs, is32bit⟩
      cases rhs with
      | reg r => simp [branchWords]
      | imm v =>
        have hlen := length_emitLoadImm64 tmp v
        simp [branchWords]
        omega
    · rcases cond with ⟨op, lhs, rhs, is32bit⟩
      cases rhs <;> simp [branchWords]
  | jump target =>
    refine ⟨[bImm 0], fun _ e _ => ?_, by simp, by simp⟩
    rw [emitNode, Emitter.pushRelocation_emit32]
    rfl
  | call funcId => exact hwords [blr 9] (by simp) rfl fun e => rfl
  | ret => exact hwords _ (by simp) rfl fun e => rfl
  | spill reg slot => exact hwords [strXImm reg.num 31 slot.offset] (by simp) rfl fun e => rfl
  | fill reg slot => exact hwords [ldrXImm reg.num 31 slot.offset] (by simp) rfl fun e => rfl
  | atomic width op base src off =>
    have hlen := length_emitLoadImm64 tmp (off.signExtend 64)
    refine hwords _ ?_ rfl fun e => rfl
    unfold emitAtomicNode
    split_ifs <;> simp
    omega
  | endian toBe width dst =>
    exact hwords _ (by cases toBe <;> cases width <;> simp [emitEndianNode]) rfl fun e => rfl
  | label bb => exact h.elim
  | prologue frameSize =>
    obtain ⟨ws, hws, hlen⟩ := emitPrologue_ok (ε := AArch64EmitError) h
    exact hwords ws (by omega) rfl fun e => by rw [emitNode, hws]; rfl
  | epilogue frameSize => exact hwords _ (by simp [emitEpilogue]) rfl fun e => rfl

/-- With overflow checks the prologue of any other frame size panics. -/
theorem emitPrologue_of_not [Profile] {ε : Type} {frameSize : U16}
    (h : ¬ FrameNegates frameSize) : emitPrologue (ε := ε) frameSize = panic := by
  unfold FrameNegates at h
  push Not at h
  obtain ⟨hchecks, rfl⟩ := h
  unfold emitPrologue negS overflowing
  rw [hchecks]
  rfl

/-- A node whose emission succeeds appends words, unless it is a label. -/
theorem exists_append_of_ok [Profile] {node : IrNode} (h : ∀ bb, node ≠ .label bb)
    {e e' : AArch64Emitter} (hemit : emitNode e node = .ok e') :
    ∃ ws, e' = e.append ws (branchOf node) ∧ ws.length ≤ 8 ∧ (branchOf node ≠ none → ws ≠ []) := by
  have hok : Emittable node := by
    cases node with
    | label bb => exact absurd rfl (h bb)
    | prologue frameSize =>
      by_contra hneg
      rw [emitNode, emitPrologue_of_not hneg] at hemit
      cases hemit
    | _ => trivial
  obtain ⟨ws, hws, hlen, hne⟩ := emitNode_emits hok
  exact ⟨ws, Except.ok.inj (hemit.symm.trans (hws _ e le_rfl)), hlen, hne⟩

end NVMirror.Aarch64
