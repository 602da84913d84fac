import NVMirror.JitIr.Emission
import NVMirror.JitRiscv.Emit

/-!
# The RISC-V words of a node

`emitNode_emits`: the RISC-V emitter never fails on a node, and the words it emits depend on the
node only, as long as the buffer is smaller than 2³⁰ bytes.
-/

namespace NVMirror.Riscv

open Rust

/-! ### Words -/

section

variable {ε : Type} [Profile]

/-- Small constants can be rounded. -/
theorem splitImm_eq (val : I64) (h : val.toInt < 2 ^ 62) : splitImm (ε := ε) val =
    .ok (((val + 0x800).sshiftRight 12).setWidth 32, val.setWidth 32 &&& 0xFFF) := by
  have hover : BitVec.saddOverflow val 0x800 = false := by
    have h2048 : (0x800 : I64).toInt = 2048 := rfl
    have hlow := BitVec.le_toInt val
    rw [BitVec.saddOverflow, h2048, Bool.or_eq_false_iff, decide_eq_false_iff_not,
      decide_eq_false_iff_not]
    omega
  unfold splitImm addS
  rw [overflowing_of_not hover, ok_bind]
  rfl

/-- The halves of a constant are small. -/
theorem splitImm_halves (imm : U64) : ∃ x y, splitImm (ε := ε) (imm >>> 32) = .ok x ∧
    splitImm (ε := ε) (imm &&& 0xFFFFFFFF) = .ok y := by
  have hupper : (imm >>> 32).toInt < 2 ^ 62 := by
    have h1 := BitVec.toInt_eq_toNat_cond (imm >>> 32)
    have h2 := imm.isLt
    rw [BitVec.toNat_ushiftRight, Nat.shiftRight_eq_div_pow] at h1
    split_ifs at h1 <;> omega
  have hlower : (imm &&& 0xFFFFFFFF).toInt < 2 ^ 62 := by
    have h1 := BitVec.toInt_eq_toNat_cond (imm &&& 0xFFFFFFFF)
    have h2 : (imm &&& 0xFFFFFFFF).toNat ≤ 0xFFFFFFFF := by
      rw [BitVec.toNat_and]
      exact Nat.and_le_right
    split_ifs at h1 <;> omega
  exact ⟨_, _, splitImm_eq _ hupper, splitImm_eq _ hlower⟩

theorem emitLoadImm64_ok (rd : U8) (imm : U64) :
    ∃ ws, emitLoadImm64 (ε := ε) rd imm = .ok ws ∧ ws.length ≤ 6 := by
  unfold emitLoadImm64
  split_ifs with h0 h12 h32
  · exact ⟨_, rfl, by simp⟩
  · exact ⟨_, rfl, by simp⟩
  · rw [splitImm_eq imm (by omega), ok_bind]
    exact ⟨_, rfl, by split_ifs <;> simp⟩
  · obtain ⟨⟨hiUpper, loUpper⟩, ⟨hiLower, loLower⟩, hx, hy⟩ := splitImm_halves (ε := ε) imm
    dsimp only
    rw [hx, ok_bind, hy, ok_bind]
    exact ⟨_, rfl, by dsimp only; split_ifs <;> simp⟩

/-- The register forms do not fall back. -/
theorem emitAlu64Node_reg (op : AluOp) (dst rs : PhysReg) :
    ∃ ws, emitAlu64Node (ε := ε) op dst (.reg rs) = .ok ws ∧ ws.length ≤ 1 := by
  cases op <;> · rw [emitAlu64Node]; exact ⟨_, rfl, by simp⟩

/-- What a fallback emits. -/
theorem fallback_ok {emit : Operand → Rust ε (List U32)} {k : ℕ} (v : I64)
    (hreg : ∃ ws, emit (.reg ⟨tmp⟩) = .ok ws ∧ ws.length ≤ k) :
    ∃ ws', (do
      let (ws, rs) ← materializeImm v tmp
      let ws' ← emit (.reg ⟨rs⟩)
      pure (ws ++ ws')) = .ok ws' ∧ ws'.length ≤ 6 + k := by
  obtain ⟨ws, hws, hlen⟩ := emitLoadImm64_ok (ε := ε) tmp v
  obtain ⟨ws', hws', hlen'⟩ := hreg
  unfold materializeImm
  rw [hws, ok_bind, pure_eq, ok_bind]
  dsimp only
  rw [hws', ok_bind]
  exact ⟨_, rfl, by rw [List.length_append]; omega⟩

theorem emitAlu64Node_ok (op : AluOp) (dst : PhysReg) (src : Operand) :
    ∃ ws, emitAlu64Node (ε := ε) op dst src = .ok ws ∧ ws.length ≤ 7 := by
  cases src with
  | reg rs =>
    obtain ⟨ws, hws, hlen⟩ := emitAlu64Node_reg op dst rs
    exact ⟨ws, hws, by omega⟩
  | imm v =>
    have hfall := fallback_ok (ε := ε) v (emitAlu64Node_reg op dst ⟨tmp⟩)
    cases op with
    | mov =>
      obtain ⟨ws, hws, hlen⟩ := emitLoadImm64_ok (ε := ε) dst.num v
      rw [emitAlu64Node]
      exact ⟨ws, hws, by omega⟩
    | lsh | rsh | arsh | neg =>
      rw [emitAlu64Node]
      exact ⟨_, rfl, by simp⟩
    | _ =>
      rw [emitAlu64Node]
      · split_ifs <;> first | exact ⟨_, rfl, by simp⟩ | exact hfall
      all_goals simp

theorem emitAlu32Node_reg (op : AluOp) (dst rs : PhysReg) :
    ∃ ws, emitAlu32Node (ε := ε) op dst (.reg rs) = .ok ws ∧ ws.length ≤ 3 := by
  cases op <;> · rw [emitAlu32Node]; exact ⟨_, rfl, by simp [zeroExtend]⟩

theorem emitAlu32Node_ok (op : AluOp) (dst : PhysReg) (src : Operand) :
    ∃ ws, emitAlu32Node (ε := ε) op dst src = .ok ws ∧ ws.length ≤ 9 := by
  cases src with
  | reg rs =>
    obtain ⟨ws, hws, hlen⟩ := emitAlu32Node_reg op dst rs
    exact ⟨ws, hws, by omega⟩
  | imm v =>
    have hfall := fallback_ok (ε := ε) v (emitAlu32Node_reg op dst ⟨tmp⟩)
    cases op with
    | neg =>
      rw [emitAlu32Node]
      exact ⟨_, rfl, by simp⟩
    | _ =>
      rw [emitAlu32Node]
      · exact hfall
      all_goals simp

/-! ### Frames -/

/-- Offset from the stack pointer of the slot `k` bytes below the top of the frame. -/
def slotOff (frameSize : U16) (k : I32) : I32 := frameSize.setWidth 32 - k

theorem frameOff_eq (frameSize : U16) {k : I32} (h0 : 0 ≤ k.toInt) :
    frameOff (ε := ε) frameSize k = .ok (slotOff frameSize k) := by
  have hsize : (frameSize.setWidth 32).toInt = frameSize.toNat := by
    have h1 := BitVec.toInt_eq_toNat_cond (frameSize.setWidth 32)
    have h2 := frameSize.isLt
    rw [BitVec.toNat_setWidth, Nat.mod_eq_of_lt (by omega), if_pos (by omega)] at h1
    exact h1
  have hover : BitVec.ssubOverflow (frameSize.setWidth 32) k = false := by
    have h1 := frameSize.isLt
    have h2 := BitVec.toInt_lt (x := k)
    rw [BitVec.ssubOverflow, hsize, Bool.or_eq_false_iff, decide_eq_false_iff_not,
      decide_eq_false_iff_not]
    omega
  unfold frameOff subS
  exact overflowing_of_not hover _

def prologueWords (frameSize : U16) : List U32 :=
  [addi 2 2 (-(frameSize.setWidth 32)), sd 1 2 (slotOff frameSize 8), sd 8 2 (slotOff frameSize 16),
    sd 18 2 (slotOff frameSize 24), sd 19 2 (slotOff frameSize 32), sd 20 2 (slotOff frameSize 40),
    sd 21 2 (slotOff frameSize 48), sd 22 2 (slotOff frameSize 56),
    addi 8 2 (frameSize.setWidth 32)]

def epilogueWords (frameSize : U16) : List U32 :=
  [ld 22 2 (slotOff frameSize 56), ld 21 2 (slotOff frameSize 48), ld 20 2 (slotOff frameSize 40),
    ld 19 2 (slotOff frameSize 32), ld 18 2 (slotOff frameSize 24), ld 8 2 (slotOff frameSize 16),
    ld 1 2 (slotOff frameSize 8), addi 2 2 (frameSize.setWidth 32)]

theorem emitPrologue_eq (frameSize : U16) :
    emitPrologue (ε := ε) frameSize = .ok (prologueWords frameSize) := by
  have hneg : BitVec.negOverflow (frameSize.setWidth 32) = false := by
    have h1 := BitVec.toInt_eq_toNat_cond (frameSize.setWidth 32)
    have h2 := frameSize.isLt
    rw [BitVec.toNat_setWidth, Nat.mod_eq_of_lt (by omega), if_pos (by omega)] at h1
    rw [BitVec.negOverflow]
    exact beq_eq_false_iff_ne.2 (by omega)
  unfold emitPrologue negS
  rw [overflowing_of_not hneg, ok_bind, frameOff_eq frameSize (k := 8) (by decide), ok_bind,
    frameOff_eq frameSize (k := 16) (by decide), ok_bind,
    frameOff_eq frameSize (k := 24) (by decide), ok_bind,
    frameOff_eq frameSize (k := 32) (by decide), ok_bind,
    frameOff_eq frameSize (k := 40) (by decide), ok_bind,
    frameOff_eq frameSize (k := 48) (by decide), ok_bind,
    frameOff_eq frameSize (k := 56) (by decide), ok_bind]
  rfl

theorem emitEpilogue_eq (frameSize : U16) :
    emitEpilogue (ε := ε) frameSize = .ok (epilogueWords frameSize) := by
  unfold emitEpilogue
  rw [frameOff_eq frameSize (k := 56) (by decide), ok_bind,
    frameOff_eq frameSize (k := 48) (by decide), ok_bind,
    frameOff_eq frameSize (k := 40) (by decide), ok_bind,
    frameOff_eq frameSize (k := 32) (by decide), ok_bind,
    frameOff_eq frameSize (k := 24) (by decide), ok_bind,
    frameOff_eq frameSize (k := 16) (by decide), ok_bind,
    frameOff_eq frameSize (k := 8) (by decide), ok_bind]
  rfl

/-! ### Branches and atomics -/

/-- The words of a comparison of two registers. -/
def compareWords (op : JmpOp) (lhs rhs : U8) : List U32 :=
  match op with
  | .jeq => [beq lhs rhs 0]
  | .jne => [bne lhs rhs 0]
  | .jgt => [bltu rhs lhs 0]
  | .jge => [bgeu lhs rhs 0]
  | .jlt => [bltu lhs rhs 0]
  | .jle => [bgeu rhs lhs 0]
  | .jsgt => [blt rhs lhs 0]
  | .jsge => [bge lhs rhs 0]
  | .jslt => [blt lhs rhs 0]
  | .jsle => [bge rhs lhs 0]
  | .jset => [and tmp lhs rhs, bne tmp 0 0]
  | .ja => [jal 0 0]

omit [Profile] in
theorem compareWords_bounds (op : JmpOp) (lhs rhs : U8) :
    (compareWords op lhs rhs).length ≤ 2 ∧ compareWords op lhs rhs ≠ [] := by
  cases op <;> simp [compareWords]

omit [Profile] in
/-- The relocation of `Jset` is at its second word. -/
theorem pushRelocation_two (e : RiscVEmitter) (w w' : U32) (target : BasicBlockId) :
    ((e.emit32 w).emit32 w').pushRelocation (e.currentOffset + 4) target RelocKind.branch =
      e.append [w, w'] (some (target, .branch)) := by
  simp [Emitter.emit32, Emitter.pushRelocation, Emitter.append, Emitter.currentOffset, ofWords]

theorem emitBranchNode_reg (e : RiscVEmitter) (op : JmpOp) (lhs r : PhysReg) (is32bit : Bool)
    (target : BasicBlockId) :
    emitBranchNode (ε := ε) e ⟨op, lhs, .reg r, is32bit⟩ target =
      .ok (e.append (compareWords op lhs.num r.num) (some (target, .branch))) := by
  cases op with
  | jset => exact congrArg Except.ok (pushRelocation_two e _ _ target)
  | _ => exact congrArg Except.ok (Emitter.pushRelocation_emit32 e _ target _)

/-- After the constant the branch is one on `tmp`. -/
theorem emitBranchNode_imm (e : RiscVEmitter) (op : JmpOp) (lhs : PhysReg) {v : I64}
    {ws : List U32} (hws : emitLoadImm64 (ε := ε) tmp v = .ok ws) (is32bit : Bool)
    (target : BasicBlockId) :
    emitBranchNode (ε := ε) e ⟨op, lhs, .imm v, is32bit⟩ target =
      .ok (e.append (ws ++ compareWords op lhs.num tmp) (some (target, .branch))) := by
  obtain ⟨-, hne⟩ := compareWords_bounds op lhs.num tmp
  have himm : emitBranchNode (ε := ε) e ⟨op, lhs, .imm v, is32bit⟩ target =
      emitBranchNode (e.emitWords ws) ⟨op, lhs, .reg ⟨tmp⟩, is32bit⟩ target := by
    unfold emitBranchNode branchRhs materializeImm
    dsimp only
    rw [hws]
    rfl
  rw [himm, emitBranchNode_reg, Emitter.emitWords_eq, Emitter.append_append_branch _ _ hne]

theorem emitBranchNode_ok (cond : BranchCond) :
    ∃ ws, ws.length ≤ 8 ∧ ws ≠ [] ∧ ∀ (e : RiscVEmitter) (target : BasicBlockId),
      emitBranchNode (ε := ε) e cond target = .ok (e.append ws (some (target, .branch))) := by
  rcases cond with ⟨op, lhs, rhs, is32bit⟩
  cases rhs with
  | reg r =>
    obtain ⟨hlen, hne⟩ := compareWords_bounds op lhs.num r.num
    exact ⟨_, by omega, hne, fun e target => emitBranchNode_reg e op lhs r is32bit target⟩
  | imm v =>
    obtain ⟨ws, hws, hlen⟩ := emitLoadImm64_ok (ε := ε) tmp v
    obtain ⟨hlen', hne⟩ := compareWords_bounds op lhs.num tmp
    refine ⟨ws ++ compareWords op lhs.num tmp, ?_, by simp [hne],
      fun e target => emitBranchNode_imm e op lhs hws is32bit target⟩
    rw [List.length_append]
    omega

omit [Profile] in
theorem asI32_sub (n : ℕ) : asI32 n - asI32 (n + 12) = -12 := by
  unfold asI32
  rw [BitVec.ofNat_add]
  bv_omega

/-- The branch of compare-and-exchange goes back by three words. -/
theorem subS_asI32 {n : ℕ} (h : n + 12 < 2 ^ 31) :
    subS (ε := ε) (asI32 n) (asI32 (n + 12)) = .ok (-12) := by
  have hint : ∀ k < 2 ^ 31, (asI32 k).toInt = k := by
    intro k hk
    have h1 := BitVec.toInt_eq_toNat_cond (asI32 k)
    unfold asI32 at h1 ⊢
    rw [BitVec.toNat_ofNat, Nat.mod_eq_of_lt (by omega), if_pos (by omega)] at h1
    exact h1
  have hover : BitVec.ssubOverflow (asI32 n) (asI32 (n + 12)) = false := by
    rw [BitVec.ssubOverflow, hint n (by omega), hint (n + 12) h, Bool.or_eq_false_iff,
      decide_eq_false_iff_not, decide_eq_false_iff_not]
    omega
  unfold subS
  rw [overflowing_of_not hover, asI32_sub]

/-- The address of an atomic operation. -/
def addressWord (base : PhysReg) (off : I16) : U32 :=
  if off ≠ 0 then addi tmp base.num (off.signExtend 32) else addi tmp base.num 0

/-- The words of an atomic operation between its fences. -/
def exchangeWords (op : AtomicOp) (src : PhysReg) : List U32 :=
  match op with
  | .add | .fetchAdd => [amoaddD 0 src.num tmp]
  | .or | .fetchOr => [amoorD 0 src.num tmp]
  | .and | .fetchAnd => [amoandD 0 src.num tmp]
  | .xor | .fetchXor => [amoxorD 0 src.num tmp]
  | .xchg => [amoswapD 0 src.num tmp]
  | .cmpXchg => [lrD tmp tmp, bne tmp 10 12, scD tmp src.num tmp, bne tmp 0 (-12)]

def atomicWords (op : AtomicOp) (base src : PhysReg) (off : I16) : List U32 :=
  addressWord base off :: fenceRwRw :: exchangeWords op src ++ [fenceRwRw]

omit [Profile] in
theorem length_atomicWords (op : AtomicOp) (base src : PhysReg) (off : I16) :
    (atomicWords op base src off).length ≤ 7 := by
  cases op <;> simp [atomicWords, exchangeWords]

/-- The operations with one instruction. -/
theorem emitAtomicNode_of_ne {op : AtomicOp} (hop : op ≠ .cmpXchg) (e : RiscVEmitter)
    (base src : PhysReg) (off : I16) :
    emitAtomicNode (ε := ε) e op base src off =
      .ok (e.append (atomicWords op base src off) none) := by
  have hwords : emitAtomicNode (ε := ε) e op base src off =
      .ok (e.emitWords (atomicWords op base src off)) := by
    cases op with
    | cmpXchg => exact absurd rfl hop
    | _ => rfl
  rw [hwords, Emitter.emitWords_eq]

/-- The way back is computed from two offsets. -/
theorem emitAtomicNode_cmpXchg (e : RiscVEmitter) (base src : PhysReg) (off : I16) :
    emitAtomicNode (ε := ε) e .cmpXchg base src off =
      subS (asI32 (e.buf.length + 8)) (asI32 (e.buf.length + 8 + 12)) >>= fun back =>
        pure (e.append ([addressWord base off, fenceRwRw, lrD tmp tmp, bne tmp 10 12,
          scD tmp src.num tmp] ++ [bne tmp 0 back, fenceRwRw]) none) := by
  let pre := [addressWord base off, fenceRwRw]
  let loop := [lrD tmp tmp, bne tmp 10 12, scD tmp src.num tmp]
  have hunfold : emitAtomicNode (ε := ε) e .cmpXchg base src off =
      subS (asI32 (e.emitWords pre).currentOffset)
          (asI32 (e.emitWords (pre ++ loop)).currentOffset) >>= fun back =>
        pure ((e.emitWords (pre ++ loop)).emitWords [bne tmp 0 back, fenceRwRw]) :=
    rfl
  have h1 : (e.emitWords pre).currentOffset = e.buf.length + 8 := by
    rw [Emitter.emitWords_eq]
    simp [Emitter.append, Emitter.currentOffset, pre]
  have h2 : (e.emitWords (pre ++ loop)).currentOffset = e.buf.length + 8 + 12 := by
    rw [Emitter.emitWords_eq]
    simp [Emitter.append, Emitter.currentOffset, pre, loop]
  rw [hunfold, h1, h2]
  congr 1
  funext back
  rw [Emitter.emitWords_eq, Emitter.emitWords_eq, Emitter.append_append]
  rfl

theorem emitAtomicNode_eq (op : AtomicOp) (base src : PhysReg) (off : I16) {e : RiscVEmitter}
    (he : e.buf.length < 2 ^ 30) :
    emitAtomicNode (ε := ε) e op base src off =
      .ok (e.append (atomicWords op base src off) none) := by
  by_cases hop : op = .cmpXchg
  · subst hop
    rw [emitAtomicNode_cmpXchg, subS_asI32 (by omega), ok_bind]
    rfl
  · exact emitAtomicNode_of_ne hop e base src off

/-- At any offset, if the emission succeeds. -/
theorem emitAtomicNode_of_ok {op : AtomicOp} {base src : PhysReg} {off : I16}
    {e e' : RiscVEmitter} (h : emitAtomicNode (ε := ε) e op base src off = .ok e') :
    e' = e.append (atomicWords op base src off) none := by
  by_cases hop : op = .cmpXchg
  · subst hop
    rw [emitAtomicNode_cmpXchg] at h
    obtain ⟨back, hsub, hback⟩ := bind_eq_ok.1 h
    rw [eq_of_overflowing hsub, asI32_sub] at hback
    exact (Except.ok.inj hback).symm
  · rw [emitAtomicNode_of_ne hop] at h
    exact (Except.ok.inj h).symm

end

/-! ### Nodes -/

/-- The relocation of a node. -/
def branchOf : IrNode → Option (BasicBlockId × RelocKind)
  | .branch _ target => some (target, .branch)
  | .jump target => some (target, .jal)
  | _ => none

theorem target_of_branchOf {node : IrNode} {t : BasicBlockId} {k : RelocKind}
    (h : branchOf node = some (t, k)) : node.target = some t := by
  cases node with
  | branch | jump =>
    cases h
    rfl
  | _ => cases h

/-- The words of a node other than a compare-and-exchange, wherever it is emitted. -/
theorem emitNode_append [Profile] {node : IrNode} (h : ∀ bb, node ≠ .label bb)
    (hxchg : ∀ width base src off, node ≠ .atomic width .cmpXchg base src off) :
    ∃ ws, (∀ e, emitNode e node = .ok (e.append ws (branchOf node))) ∧ ws.length ≤ 9 ∧
      (branchOf node ≠ none → ws ≠ []) := by
  have hwords : ∀ ws, ws.length ≤ 9 → branchOf node = none →
      (∀ e, emitNode e node = .ok (e.emitWords ws)) →
      ∃ ws, (∀ e, emitNode e node = .ok (e.append ws (branchOf node))) ∧ ws.length ≤ 9 ∧
        (branchOf node ≠ none → ws ≠ []) := by
    intro ws hlen hbranch hemit
    refine ⟨ws, fun e => ?_, hlen, fun hne => absurd hbranch hne⟩
    rw [hemit, Emitter.emitWords_eq, hbranch]
  cases node with
  | alu64 op dst src =>
    obtain ⟨ws, hws, hlen⟩ := emitAlu64Node_ok (ε := RiscVEmitError) op dst src
    exact hwords ws (by omega) rfl fun e => by rw [emitNode, hws]; rfl
  | alu32 op dst src =>
    obtain ⟨ws, hws, hlen⟩ := emitAlu32Node_ok (ε := RiscVEmitError) op dst src
    exact hwords ws (by omega) rfl fun e => by rw [emitNode, hws]; rfl
  | load width dst base off =>
    exact hwords _ (by cases width <;> simp [emitLoadNode]) rfl fun e => rfl
  | store width base src off =>
    exact hwords _ (by cases width <;> simp [emitStoreNode]) rfl fun e => rfl
  | storeImm width base off imm =>
    obtain ⟨ws, hws, hlen⟩ := emitLoadImm64_ok (ε := RiscVEmitError) tmp (imm.signExtend 64)
    refine hwords (ws ++ emitStoreNode width base ⟨tmp⟩ off) ?_ rfl fun e => by
      rw [emitNode, hws]; rfl
    rw [List.length_append]
    cases width <;> simp [emitStoreNode] <;> omega
  | loadImm64 dst imm =>
    obtain ⟨ws, hws, hlen⟩ := emitLoadImm64_ok (ε := RiscVEmitError) dst.num imm
    exact hwords ws (by omega) rfl fun e => by rw [emitNode, hws]; rfl
  | branch cond target =>
    obtain ⟨ws, hlen, hne, hws⟩ := emitBranchNode_ok (ε := RiscVEmitError) cond
    exact ⟨ws, fun e => hws e target, by omega, fun _ => hne⟩
  | jump target =>
    refine ⟨[jal 0 0], fun e => ?_, by simp, by simp⟩
    rw [emitNode, Emitter.pushRelocation_emit32]
    rfl
  | call funcId => exact hwords [jalr 1 23 0] (by simp) rfl fun e => rfl
  | ret => exact hwords [jalr 0 1 0] (by simp) rfl fun e => rfl
  | spill reg slot => exact hwords [sd reg.num 2 _] (by simp) rfl fun e => rfl
  | fill reg slot => exact hwords [ld reg.num 2 _] (by simp) rfl fun e => rfl
  | atomic width op base src off =>
    have hlen := length_atomicWords op base src off
    have hop : op ≠ .cmpXchg := by
      rintro rfl
      exact hxchg width base src off rfl
    exact ⟨_, fun e => emitAtomicNode_of_ne hop e base src off, by omega,
      fun hne => absurd rfl hne⟩
  | endian toBe width dst => exact hwords _ (by simp [emitEndianNode]) rfl fun e => rfl
  | label bb => exact absurd rfl (h bb)
  | prologue frameSize =>
    exact hwords _ le_rfl rfl fun e => by rw [emitNode, emitPrologue_eq]; rfl
  | epilogue frameSize =>
    exact hwords (epilogueWords frameSize) (by simp [epilogueWords]) rfl fun e => by
      rw [emitNode, emitEpilogue_eq]; rfl

/-- **The emitter never fails**, and emits at most nine words for a node. -/
theorem emitNode_emits [Profile] {limit : ℕ} (hlimit : limit < 2 ^ 30) {node : IrNode}
    (h : node.InBlock) :
    ∃ ws, Emits emitNode limit node ws (branchOf node) ∧ ws.length ≤ 9 ∧
      (branchOf node ≠ none → ws ≠ []) := by
  by_cases hxchg : ∃ width base src off, node = .atomic width .cmpXchg base src off
  · obtain ⟨width, base, src, off, rfl⟩ := hxchg
    have hlen := length_atomicWords .cmpXchg base src off
    exact ⟨_, fun e he => emitAtomicNode_eq .cmpXchg base src off (by omega), by omega,
      fun hne => absurd rfl hne⟩
  · have hlabel : ∀ bb, node ≠ .label bb := by
      rintro bb rfl
      exact h
    obtain ⟨ws, hemit, hlen, hne⟩ := emitNode_append hlabel fun width base src off heq =>
      hxchg ⟨width, base, src, off, heq⟩
    exact ⟨ws, fun e _ => hemit e, hlen, hne⟩

/-- A node whose emission succeeds appends words, unless it is a label. -/
theorem exists_append_of_ok [Profile] {node : IrNode} (h : ∀ bb, node ≠ .label bb)
    {e e' : RiscVEmitter} (hemit : emitNode e node = .ok e') :
    ∃ ws, e' = e.append ws (branchOf node) ∧ ws.length ≤ 9 ∧ (branchOf node ≠ none → ws ≠ []) := by
  by_cases hxchg : ∃ width base src off, node = .atomic width .cmpXchg base src off
  · obtain ⟨width, base, src, off, rfl⟩ := hxchg
    rw [emitNode, emitAtomicNode_cmpXchg] at hemit
    obtain ⟨back, -, hback⟩ := bind_eq_ok.1 hemit
    exact ⟨_, (Except.ok.inj hback).symm, by simp, fun hne => absurd rfl hne⟩
  · obtain ⟨ws, hws, hlen, hne⟩ := emitNode_append h fun width base src off heq =>
      hxchg ⟨width, base, src, off, heq⟩
    exact ⟨ws, Except.ok.inj (hemit.symm.trans (hws e)), hlen, hne⟩

end NVMirror.Riscv
