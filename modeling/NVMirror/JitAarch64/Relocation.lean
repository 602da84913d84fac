import NVMirror.JitAarch64.Branch
import NVMirror.JitIr.Image

/-!
# Relocation on AArch64

For every program whose blocks have ids of their own, whether or not it comes from the lowering.
The blocks may hold labels, if no branch leads to these:

* `InRange`: every target is a block within reach of the branch.  This decides whether `finalize`
  succeeds.
* `Relocated`: the branches lead to their targets, every other word is the emitted one.
* `relocation_exact` states both.
-/

namespace NVMirror.Aarch64

open Rust

variable {ir : IrProgram} {W : IrNode → List U32}

/-- The reach of a branch, in words: 19 bits for `B.cond`, 26 bits for `B`. -/
def reach (isConditional : Bool) : ℕ := if isConditional then 2 ^ 18 else 2 ^ 25

/-- Every target is a block, and its first word is within reach of the branch. -/
def InRange (W : IrNode → List U32) (ir : IrProgram) : Prop :=
  ∀ (j : ℕ) node t isConditional, ir.code[j]? = some node →
    branchOf node = some (t, isConditional) →
    ∃ ip, ir.entry t = some ip ∧ -(4 * reach isConditional : ℕ) ≤ displacement W ir.code j node ip ∧
      displacement W ir.code j node ip < (4 * reach isConditional : ℕ)

/-- The words of the program, with the branches patched. -/
structure Relocated (W : IrNode → List U32) (ir : IrProgram) (ws : List U32) : Prop where
  length_eq : ws.length = (ir.code.flatMap W).length
  /-- The word of a `Branch` is a `B.cond` with its condition, to the first word of its target. -/
  branch : ∀ {j : ℕ} {cond : BranchCond} {t : BasicBlockId}, ir.code[j]? = some (.branch cond t) →
    ∃ ip w imm19, ir.entry t = some ip ∧
      ws[wordPos W ir.code j + ((W (.branch cond t)).length - 1)]? = some w ∧
      decode w = some (.bCond ((jmpopToConditionCode cond.op).setWidth 4) imm19) ∧
      4 * imm19.toInt = displacement W ir.code j (.branch cond t) ip
  /-- The word of a `Jump` is a `B` to the first word of its target. -/
  jump : ∀ {j : ℕ} {t : BasicBlockId}, ir.code[j]? = some (.jump t) →
    ∃ ip w imm26, ir.entry t = some ip ∧
      ws[wordPos W ir.code j + ((W (.jump t)).length - 1)]? = some w ∧
      decode w = some (.b imm26) ∧ 4 * imm26.toInt = displacement W ir.code j (.jump t) ip
  /-- Every other word. -/
  other : ∀ {j : ℕ} {node : IrNode}, ir.code[j]? = some node → ∀ i < (W node).length,
    branchOf node = none ∨ i + 1 < (W node).length →
      ws[wordPos W ir.code j + i]? = (ir.code.flatMap W)[wordPos W ir.code j + i]?

/-- A displacement can be patched iff it is within reach. -/
theorem patch_eq_some_iff (isConditional : Bool) (k : ℤ) :
    (∃ f, patch isConditional (4 * k) = some f) ↔
      -(4 * reach isConditional : ℕ) ≤ 4 * k ∧ 4 * k < (4 * reach isConditional : ℕ) := by
  have htdiv : (4 * k).tdiv 4 = k := Int.mul_tdiv_cancel_left k (by decide)
  unfold patch reach
  dsimp only
  rw [htdiv]
  cases isConditional with
  | true =>
    rw [if_pos rfl, if_pos rfl]
    by_cases hrange : k < -2 ^ 18 ∨ 2 ^ 18 ≤ k
    · rw [if_pos hrange]
      exact ⟨fun ⟨f, hf⟩ => absurd hf.symm (Option.some_ne_none f), fun h => by omega⟩
    · rw [if_neg hrange]
      exact ⟨fun _ => by omega, fun _ => ⟨_, rfl⟩⟩
  | false =>
    rw [if_neg Bool.false_ne_true, if_neg Bool.false_ne_true]
    by_cases hrange : k < -2 ^ 25 ∨ 2 ^ 25 ≤ k
    · rw [if_pos hrange]
      exact ⟨fun ⟨f, hf⟩ => absurd hf.symm (Option.some_ne_none f), fun h => by omega⟩
    · rw [if_neg hrange]
      exact ⟨fun _ => by omega, fun _ => ⟨_, rfl⟩⟩

/-- The words of a program whose nodes can be emitted; labels have none. -/
theorem exists_words [Profile]
    (hinner : ∀ bb, .label bb ∈ ir.code → ∀ node ∈ ir.code, node.target ≠ some bb)
    (hframe : ∀ frameSize, .prologue frameSize ∈ ir.code → FrameNegates frameSize) :
    ∃ W, (∀ bb, W (.label bb) = []) ∧
      (∀ node ∈ ir.code, (∀ bb, node ≠ .label bb) → ∀ e,
        emitNode e node = .ok (e.append (W node) (branchOf node))) ∧
      Emission emitNode ir.code W branchOf (4 * (ir.code.flatMap W).length) := by
  have hex : ∀ node, ∃ ws : List U32, (∀ bb, node = .label bb → ws = []) ∧
      (node ∈ ir.code → (∀ bb, node ≠ .label bb) →
        ∀ limit, Emits emitNode limit node ws (branchOf node)) ∧
      (node ∈ ir.code → branchOf node ≠ none → ws ≠ []) := by
    intro node
    by_cases hlabel : ∃ bb, node = .label bb
    · obtain ⟨bb, rfl⟩ := hlabel
      exact ⟨[], fun _ _ => rfl, fun _ hno => absurd rfl (hno bb), fun _ hne => absurd rfl hne⟩
    · have hno : ∀ bb, node ≠ .label bb := fun bb heq => hlabel ⟨bb, heq⟩
      by_cases hmem : node ∈ ir.code
      · obtain ⟨ws, hemits, -, hne⟩ := emitNode_emits
          (emittable_of_not_label hno fun frameSize heq => hframe frameSize (heq ▸ hmem))
        exact ⟨ws, fun bb heq => absurd heq (hno bb), fun _ _ => hemits, fun _ => hne⟩
      · exact ⟨[], fun _ _ => rfl, fun h => absurd h hmem, fun h => absurd h hmem⟩
  choose W hempty hW hne using hex
  refine ⟨W, fun bb => hempty _ bb rfl,
    fun node hmem hno e => hW node hmem hno e.buf.length e le_rfl, fun e bb => rfl,
    fun node hmem hno => hW node hmem hno _, fun bb hmem => ⟨hempty _ bb rfl, rfl, ?_⟩, hne, le_rfl⟩
  exact fun node hnode k hB => hinner bb hmem node hnode (target_of_branchOf hB)

/-- The last word of a conditional branch. -/
theorem last_branchWords (cond : BranchCond) :
    (branchWords cond)[(branchWords cond).length - 1]? =
      some (bCond (jmpopToConditionCode cond.op) 0) := by
  rcases cond with ⟨op, lhs, rhs, is32bit⟩
  rw [← List.getLast?_eq_getElem?]
  cases rhs with
  | reg r => rfl
  | imm v =>
    unfold branchWords
    dsimp only
    rw [List.getLast?_append]
    rfl

/-- Decoding the patched words. -/
theorem relocated_of_image [Profile] {limit : ℕ} {ws : List U32}
    (hem : Emission emitNode ir.code W branchOf limit) (himg : Image W branchOf patch ir ws) :
    Relocated W ir ws := by
  have hlen : ws.length = (ir.code.flatMap W).length := by
    rw [himg.length_eq, wordPos, List.take_length]
  refine ⟨hlen, fun {j cond t} hj => ?_, fun {j t} hj => ?_, fun {j node} hj i hi hkeep => ?_⟩
  · have hemits : Emits emitNode limit (.branch cond t) (branchWords cond) (some (t, true)) :=
      fun e _ => congrArg Except.ok (emitBranchNode_eq e cond t)
    have hW := hem.words_eq (List.mem_of_getElem? hj) hemits
    have hw := last_branchWords cond
    rw [← hW] at hw
    have hlt := (List.getElem?_eq_some_iff.1 hw).1
    obtain ⟨ip, f, hentry, hf, hword⟩ := himg.branch hj rfl (by omega) hw
    obtain ⟨imm19, hdecode, himm⟩ := patch_conditional cond.op hf
    exact ⟨ip, _, imm19, hentry, hword, hdecode, congrArg (4 * ·) himm⟩
  · have hemits : Emits emitNode limit (.jump t) [bImm 0] (some (t, false)) := fun e _ => by
      rw [emitNode, Emitter.pushRelocation_emit32]
      rfl
    have hW := hem.words_eq (List.mem_of_getElem? hj) hemits
    have hw : (W (.jump t))[(W (.jump t)).length - 1]? = some (bImm 0) := by
      rw [hW]
      rfl
    have hlt := (List.getElem?_eq_some_iff.1 hw).1
    obtain ⟨ip, f, hentry, hf, hword⟩ := himg.branch hj rfl (by omega) hw
    obtain ⟨imm26, hdecode, himm⟩ := patch_unconditional hf (bImm 0)
    exact ⟨ip, _, imm26, hentry, hword, hdecode, congrArg (4 * ·) himm⟩
  · rw [himg.word hj i hi hkeep, flatMap_getElem? hj hi]

/-- **Relocation is exact.**  Let the blocks of a program have ids of their own and hold neither
labels that a branch leads to nor prologues whose frame size cannot be negated.  The program is
emitted as the words `W` of its nodes; `finalize` succeeds iff every target is a block within
reach, and then every branch leads to the first word of its target and every other word is as
emitted.  A buffer has at most `isize::MAX` bytes. -/
theorem relocation_exact [Profile]
    (hid : ∀ (i j : ℕ) (b b' : IrBasicBlock), ir.blocks[i]? = some b → ir.blocks[j]? = some b' →
      b.id = b'.id → i = j)
    (hinner : ∀ bb, .label bb ∈ ir.code → ∀ node ∈ ir.code, node.target ≠ some bb)
    (hframe : ∀ frameSize, .prologue frameSize ∈ ir.code → FrameNegates frameSize)
    (hbuf : ∀ e, emitProgram .new ir = .ok e → e.buf.length < 2 ^ 63) :
    ∃ W e, (∀ bb, W (.label bb) = []) ∧
      (∀ node ∈ ir.code, (∀ bb, node ≠ .label bb) → ∀ e,
        emitNode e node = .ok (e.append (W node) (branchOf node))) ∧
      emitProgram .new ir = .ok e ∧ e.buf = ofWords (ir.code.flatMap W) ∧
      ((∃ buf, finalize e = .ok buf) ↔ InRange W ir) ∧
      ∀ buf, finalize e = .ok buf → ∃ ws, buf = ofWords ws ∧ Relocated W ir ws := by
  obtain ⟨W, hempty, hwords, hem⟩ := exists_words hinner hframe
  obtain ⟨bbOffsets, hemit, -⟩ := emitProgram_eq hem
  have hsize : 4 * (ir.code.flatMap W).length < 2 ^ 63 := by
    have hlen := hbuf _ hemit
    dsimp only at hlen
    rwa [length_ofWords] at hlen
  refine ⟨W, _, hempty, hwords, hemit, rfl, ?_, fun buf hfin => ?_⟩
  · have hiff := patch_ok_iff AArch64EmitError.relocationOutOfRange patch hem hsize hid
    rw [hemit, ok_bind] at hiff
    refine hiff.trans ⟨fun hall j node t k hj hB => ?_, fun hall j node t k hj hB => ?_⟩
    · obtain ⟨ip, f, hentry, hf⟩ := hall j node t k hj hB
      exact ⟨ip, hentry, (patch_eq_some_iff k _).1 ⟨f, hf⟩⟩
    · obtain ⟨ip, hentry, hrange⟩ := hall j node t k hj hB
      obtain ⟨f, hf⟩ := (patch_eq_some_iff k _).2 hrange
      exact ⟨ip, f, hentry, hf⟩
  · obtain ⟨bbOffsets', hlabels, hemit', hmeets⟩ :=
      emission_meets AArch64EmitError.relocationOutOfRange patch hem hsize
    cases hemit.symm.trans hemit'
    rw [hemit', ok_bind] at hmeets
    obtain ⟨ws, rfl, hpatched⟩ := hmeets.of_ok hfin
    exact ⟨ws, rfl, relocated_of_image hem (image_of_patched hem hid hlabels hpatched)⟩

/-- Two blocks, with a conditional branch forwards and a jump backwards.  Both hold a label that no
branch leads to. -/
def twoBranches : IrProgram where
  blocks := [⟨⟨0⟩, [.label ⟨7⟩, .branch ⟨.jeq, ⟨7⟩, .imm 0, false⟩ ⟨1⟩, .jump ⟨0⟩]⟩,
    ⟨⟨1⟩, [.prologue 64, .label ⟨7⟩, .ret]⟩]
  frameSize := 64

/-- `relocation_exact` at `twoBranches`. -/
theorem relocation_exact_twoBranches :
    ∃ W e, (∀ bb, W (.label bb) = []) ∧
      (∀ node ∈ twoBranches.code, (∀ bb, node ≠ .label bb) → ∀ e,
        @emitNode debug e node = .ok (e.append (W node) (branchOf node))) ∧
      @emitProgram debug .new twoBranches = .ok e ∧
      e.buf = ofWords (twoBranches.code.flatMap W) ∧
      ((∃ buf, finalize e = .ok buf) ↔ InRange W twoBranches) ∧
      ∀ buf, finalize e = .ok buf → ∃ ws, buf = ofWords ws ∧ Relocated W twoBranches ws := by
  have hid : ∀ i < 2, ∀ j < 2, twoBranches.blocks[i]?.map IrBasicBlock.id =
      twoBranches.blocks[j]?.map IrBasicBlock.id → i = j := by decide
  have hlt : ∀ {i : ℕ} {b : IrBasicBlock}, twoBranches.blocks[i]? = some b → i < 2 :=
    fun h => (List.getElem?_eq_some_iff.1 h).1
  refine @relocation_exact _ debug (fun i j b b' hb hb' h => ?_) (fun bb hbb => ?_)
    (fun frameSize hmem hchecks => ?_) fun e he => ?_
  · refine hid i (hlt hb) j (hlt hb') ?_
    rw [hb, hb', Option.map_some, Option.map_some, h]
  · have hlabels : ∀ node ∈ twoBranches.code, (∃ bb, node = .label bb) → node = .label ⟨7⟩ := by
      rintro node hnode ⟨bb, rfl⟩
      simpa [twoBranches, IrProgram.code] using hnode
    have htargets : ∀ node ∈ twoBranches.code, node.target ≠ some ⟨7⟩ := by decide
    cases hlabels _ hbb ⟨bb, rfl⟩
    exact htargets
  · have hframes : IrNode.prologue 0x8000 ∉ twoBranches.code := by decide
    rintro rfl
    exact hframes hmem
  · have hsize : (@emitProgram debug .new twoBranches).map (fun e => e.buf.length) = .ok 44 := rfl
    rw [he] at hsize
    have hlen : e.buf.length = 44 := Except.ok.inj hsize
    omega

/-- A jump to a label inside its block. -/
def innerLabel : IrProgram where
  blocks := [⟨⟨0⟩, [.label ⟨7⟩, .jump ⟨7⟩]⟩]
  frameSize := 0

/-- A frame whose size cannot be negated. -/
def hugeFrame : IrProgram where
  blocks := [⟨⟨0⟩, [.prologue 0x8000, .ret]⟩]
  frameSize := 0x8000

/-- **Without these assumptions relocation is not as stated.**  With a jump to a label inside a
block, `finalize` succeeds although no block has the id of the target; with overflow checks, a
program without any branch is not emitted when its frame has `2 ^ 15` bytes. -/
theorem innerLabel_finalizes :
    (∃ e buf, @emitProgram debug .new innerLabel = .ok e ∧ finalize e = .ok buf) ∧
      .jump ⟨7⟩ ∈ innerLabel.code ∧ (¬ ∃ b ∈ innerLabel.blocks, b.id = ⟨7⟩) ∧
      (∀ node ∈ hugeFrame.code, branchOf node = none) ∧
      @emitProgram debug .new hugeFrame = panic := by
  refine ⟨⟨_, _, rfl, rfl⟩, by decide, by decide, by decide, rfl⟩

end NVMirror.Aarch64
