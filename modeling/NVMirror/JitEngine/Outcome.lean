import NVMirror.EbpfCore.Acceptance
import NVMirror.JitAarch64.Relocation
import NVMirror.JitEngine.Size

/-!
# When the compiler succeeds

The compiler rejects what the decoder or the verifier rejects, and programs with a branch that does
not reach its target.  The error then names the target of the first such branch.

* `Stuck`: the branch of a node cannot be patched; `exists_first_stuck`: patching fails at the
  first such branch, and `emission_outcome`: it succeeds when there is none.
* `OutOfReach`: the same in terms of the offsets of the nodes.
* `compile_outcome`: when the compiler succeeds, and when it fails with which error.
-/

namespace NVMirror

open Rust Leaders

/-! ### The first branch that cannot be patched -/

section

variable {κ ε : Type} {emitNode : Emitter κ → IrNode → Rust ε (Emitter κ)}
  {W : IrNode → List U32} {B : IrNode → Option (BasicBlockId × κ)} {limit : ℕ}
  {patch : κ → ℤ → Option (U32 → U32)} {outOfRange : BasicBlockId → ε} {ir : IrProgram}
  {bbOffsets : List (Option ℕ)}

/-- The relocation of a node. -/
def relocOf (W : IrNode → List U32) (ir : IrProgram) (j : ℕ) (node : IrNode) (t : BasicBlockId)
    (k : κ) : Relocation κ :=
  ⟨0 + 4 * ((ir.code.take j).flatMap W).length + 4 * ((W node).length - 1), t, k⟩

/-- No patch leads from the branch of node `j` to its target `t`. -/
def Stuck (W : IrNode → List U32) (B : IrNode → Option (BasicBlockId × κ))
    (patch : κ → ℤ → Option (U32 → U32)) (ir : IrProgram) (j : ℕ) (t : BasicBlockId) : Prop :=
  ∃ node k, ir.code[j]? = some node ∧ B node = some (t, k) ∧
    ∀ ip, ir.entry t = some ip → patch k (displacement W ir.code j node ip) = none

/-- A relocation can be patched iff a patch leads to each entry of its target. -/
theorem unpatchable_iff {j : ℕ} {node : IrNode} {t : BasicBlockId} {k : κ}
    (hno : .label t ∉ ir.code)
    (hid : ∀ (i j : ℕ) (b b' : IrBasicBlock), ir.blocks[i]? = some b → ir.blocks[j]? = some b' →
      b.id = b'.id → i = j)
    (hlabels : LabelOffsets W ir.blocks ir.blocks.length bbOffsets) :
    Unpatchable patch bbOffsets (relocOf W ir j node t k) ↔
      ∀ ip, ir.entry t = some ip → patch k (displacement W ir.code j node ip) = none := by
  -- the displacement, from the offsets of a block and of the branch
  have hsame : ∀ i : ℕ,
      ((4 * (((ir.blocks.take i).flatMap IrBasicBlock.nodes).flatMap W).length : ℕ) : ℤ) -
        ((relocOf W ir j node t k).offset : ℤ) =
      displacement W ir.code j node ((ir.blocks.take i).flatMap IrBasicBlock.nodes).length := by
    intro i
    unfold relocOf displacement
    rw [wordPos, ir.take_code, wordPos]
    push_cast
    ring
  constructor
  · intro h ip hentry
    obtain ⟨i, b, hb, rfl, rfl⟩ := IrProgram.exists_of_entry hentry
    have hoff := hlabels.of_block hb hno fun j' b' hb' heq => hid j' i b' b hb' hb heq
    rw [← hsame i]
    exact h _ hoff
  · intro h target htarget
    obtain ⟨i, b, -, hb, hbt, -, rfl⟩ := (hlabels _ _ hno).1 htarget
    have hentry := IrProgram.entry_of_getElem? hb fun j' b' hlt hb' heq => by
      have := hid _ _ _ _ hb' hb heq
      omega
    rw [hbt] at hentry
    rw [hsame i]
    exact h _ hentry

/-- **Patching fails at the first relocation that cannot be patched.** -/
theorem exists_unpatchable {relocations : List (Relocation κ)} {ws : List U32}
    (hlen : 4 * ws.length < 2 ^ 63)
    (hbb : ∀ r ∈ relocations, ∀ off : ℕ, bbOffsets[r.target.id.toNat]?.join = some off →
      off ≤ 4 * ws.length)
    (hrel : ∀ r ∈ relocations, ∃ i < ws.length, r.offset = 4 * i)
    (hpair : relocations.Pairwise fun r r' => r.offset < r'.offset) {f : Fault ε}
    (hfail : Emitter.patchRelocations outOfRange patch ⟨ofWords ws, bbOffsets, relocations⟩ =
      .error f) :
    ∃ (k : ℕ) (r : Relocation κ), relocations[k]? = some r ∧ f = .err (outOfRange r.target) ∧
      Unpatchable patch bbOffsets r ∧
      ∀ r' ∈ relocations.take k, ¬ Unpatchable patch bbOffsets r' := by
  obtain ⟨k, r, buf, hk, htake, hstep⟩ := exists_of_foldlM_error hfail
  -- the relocations before it are patched
  have hsub : ∀ r' ∈ relocations.take k, r' ∈ relocations := fun r' => List.mem_of_mem_take
  obtain ⟨ws', rfl, hpatched⟩ := (@patchRelocations_meets _ _ outOfRange patch _ _ _ hlen
    (fun r' hr' => hbb r' (hsub r' hr')) (fun r' hr' => hrel r' (hsub r' hr'))
    (hpair.sublist (List.take_sublist k _))).of_ok htake
  have hbefore : ∀ r' ∈ relocations.take k, ¬ Unpatchable patch bbOffsets r' := by
    intro r' hr' hun
    obtain ⟨i, -, hoff⟩ := hrel r' (hsub r' hr')
    obtain ⟨target, g, w, htarget, hg, -⟩ := hpatched.patched r' hr' i hoff
    rw [hun target htarget] at hg
    cases hg
  -- this one is not
  have hlength := hpatched.length_eq
  have hone := @patchRelocations_meets _ _ outOfRange patch bbOffsets [r] ws' (by omega)
    (fun r' hr' => by
      rw [List.mem_singleton.1 hr', hlength]
      exact hbb r (List.mem_of_getElem? hk))
    (fun r' hr' => by
      rw [List.mem_singleton.1 hr', hlength]
      exact hrel r (List.mem_of_getElem? hk))
    (List.pairwise_singleton _ r)
  have hfold : Emitter.patchRelocations outOfRange patch ⟨ofWords ws', bbOffsets, [r]⟩ =
      .error f := by
    show [r].foldlM (Emitter.patchRelocation outOfRange patch bbOffsets) (ofWords ws') = _
    rw [List.foldlM_cons, hstep]
    rfl
  rw [hfold] at hone
  obtain ⟨r', hr', hf, hun⟩ := hone
  cases List.mem_singleton.1 hr'
  exact ⟨k, r, hk, hf, hun, hbefore⟩

/-- The relocations of earlier nodes come earlier. -/
theorem relocOf_offset_lt (h : Emission emitNode ir.code W B limit) {j j' : ℕ} (hlt : j < j')
    {node : IrNode} {t : BasicBlockId} {k : κ} (hj : ir.code[j]? = some node)
    (hB : B node = some (t, k)) (node' : IrNode) (t' : BasicBlockId) (k' : κ) :
    (relocOf W ir j node t k).offset < (relocOf W ir j' node' t' k').offset := by
  have hpos := List.length_pos_iff.2 (h.ne_nil node (List.mem_of_getElem? hj) (by simp [hB]))
  have hsucc := wordPos_succ (W := W) hj
  have hmono : wordPos W ir.code (j + 1) ≤ wordPos W ir.code j' := wordPos_mono hlt
  unfold wordPos at hsucc hmono
  unfold relocOf
  dsimp only
  omega

/-- **Emission fails at the first branch that is stuck.** -/
theorem exists_first_stuck (h : Emission emitNode ir.code W B limit)
    (hsize : 4 * (ir.code.flatMap W).length < 2 ^ 63)
    (hid : ∀ (i j : ℕ) (b b' : IrBasicBlock), ir.blocks[i]? = some b → ir.blocks[j]? = some b' →
      b.id = b'.id → i = j) {f : Fault ε}
    (hfail : (do
      let e ← Emitter.emitProgram emitNode .new ir
      e.patchRelocations outOfRange patch) = .error f) :
    ∃ j t, Stuck W B patch ir j t ∧ (∀ j' < j, ∀ t', ¬ Stuck W B patch ir j' t') ∧
      f = .err (outOfRange t) := by
  obtain ⟨bbOffsets, hemit, hlabels⟩ := emitProgram_eq h
  rw [hemit, ok_bind] at hfail
  have hpair := relocs_pairwise h.ne_nil 0
  obtain ⟨n, r, hn, hf, hun, hbefore⟩ := exists_unpatchable hsize (fun r hr off hoff => by
      obtain ⟨i, b, -, -, -, -, rfl⟩ := (hlabels _ off (h.not_mem_of_relocs hr)).1 hoff
      have := length_flatMap_take_le W ir i
      omega)
    (fun r hr => by
      obtain ⟨-, hle, i, hi⟩ := relocs_bounds h.ne_nil hr
      exact ⟨i, by omega, by omega⟩) hpair hfail
  have hno := h.not_mem_of_relocs (List.mem_of_getElem? hn)
  obtain ⟨j, node, t, k, hj, hB, rfl⟩ := mem_relocs.1 (List.mem_of_getElem? hn)
  refine ⟨j, t, ⟨node, k, hj, hB, (unpatchable_iff hno hid hlabels).1 hun⟩, ?_, hf⟩
  rintro j' hlt t' ⟨node', k', hj', hB', hstuck⟩
  have hmem' : relocOf W ir j' node' t' k' ∈ relocs W B 0 ir.code :=
    mem_relocs.2 ⟨j', node', t', k', hj', hB', rfl⟩
  refine hbefore (relocOf W ir j' node' t' k') ?_
    ((unpatchable_iff (h.not_mem_of_relocs hmem') hid hlabels).2 hstuck)
  -- the relocation of an earlier node is one of the relocations before
  obtain ⟨n', hn'⟩ := List.getElem?_of_mem hmem'
  have hoffset := relocOf_offset_lt h hlt hj' hB' node t k
  have hlt' : n' < n := by
    by_contra hge
    obtain ⟨hnlt, hneq⟩ := List.getElem?_eq_some_iff.1 hn
    obtain ⟨hnlt', hneq'⟩ := List.getElem?_eq_some_iff.1 hn'
    rcases Nat.lt_or_eq_of_le (Nat.le_of_not_lt hge) with hgt | rfl
    · have hpair' := List.pairwise_iff_getElem.1 hpair n n' hnlt hnlt' hgt
      rw [hneq, hneq'] at hpair'
      exact lt_asymm hoffset hpair'
    · rw [hneq] at hneq'
      exact hoffset.ne' (congrArg Relocation.offset hneq')
  refine List.mem_of_getElem? (i := n') ?_
  rw [List.getElem?_take_of_lt hlt', hn']

/-- **What emission comes to**: success iff no branch is stuck, and an error at the first one that
is. -/
theorem emission_outcome (h : Emission emitNode ir.code W B limit)
    (hsize : 4 * (ir.code.flatMap W).length < 2 ^ 63)
    (hid : ∀ (i j : ℕ) (b b' : IrBasicBlock), ir.blocks[i]? = some b → ir.blocks[j]? = some b' →
      b.id = b'.id → i = j) (hinj : Function.Injective outOfRange) {x : Rust ε (List U8)}
    (hx : (do
      let e ← Emitter.emitProgram emitNode .new ir
      e.patchRelocations outOfRange patch) = x) :
    ((∃ buf, x = .ok buf) ↔ ∀ j t, ¬ Stuck W B patch ir j t) ∧
      ∀ t, x = fail (outOfRange t) ↔
        ∃ j, Stuck W B patch ir j t ∧ ∀ j' < j, ∀ t', ¬ Stuck W B patch ir j' t' := by
  have hok : (∃ buf, x = .ok buf) ↔ ∀ j t, ¬ Stuck W B patch ir j t := by
    rw [← hx, patch_ok_iff outOfRange patch h hsize hid]
    constructor
    · rintro hall j t ⟨node, k, hj, hB, hstuck⟩
      obtain ⟨ip, f, hentry, hf⟩ := hall j node t k hj hB
      rw [hstuck ip hentry] at hf
      cases hf
    · intro hall j node t k hj hB
      by_contra hno
      refine hall j t ⟨node, k, hj, hB, fun ip hentry => ?_⟩
      by_contra hne
      obtain ⟨f, hf⟩ := Option.ne_none_iff_exists'.1 hne
      exact hno ⟨ip, f, hentry, hf⟩
  refine ⟨hok, fun t => ⟨fun hfail => ?_, ?_⟩⟩
  · obtain ⟨j, t', hstuck, hfirst, heq⟩ := exists_first_stuck h hsize hid (hx.trans hfail)
    cases hinj (Fault.err.inj heq)
    exact ⟨j, hstuck, hfirst⟩
  · rintro ⟨j, hstuck, hfirst⟩
    cases x with
    | ok buf => exact absurd hstuck (hok.1 ⟨buf, rfl⟩ j t)
    | error f =>
      obtain ⟨j', t', hstuck', hfirst', rfl⟩ := exists_first_stuck h hsize hid hx
      -- both are the first one
      have hj : j' = j := by
        rcases lt_trichotomy j j' with hlt | heq | hlt
        · exact absurd hstuck (hfirst' j hlt t)
        · exact heq.symm
        · exact absurd hstuck' (hfirst j' hlt t')
      subst hj
      obtain ⟨node, k, hj, hB, -⟩ := hstuck
      obtain ⟨node', k', hj', hB', -⟩ := hstuck'
      cases hj.symm.trans hj'
      cases hB.symm.trans hB'
      rfl

end

/-! ### Reach -/

/-- How far the branch of a node reaches, in bytes. -/
def branchReach : Target → IrNode → ℕ
  | .aArch64, .branch .. => 2 ^ 20
  | .aArch64, _ => 2 ^ 27
  | .riscV64, .branch .. => 2 ^ 12
  | .riscV64, _ => 2 ^ 20

/-- The error for a branch that does not reach its target. -/
def rangeError : Target → BasicBlockId → JitError
  | .aArch64, t => .emitAArch64 (.relocationOutOfRange t)
  | .riscV64, t => .emitRiscV (.relocationOutOfRange t)

section

variable {κ ε : Type} {emitNode : Emitter κ → IrNode → Rust ε (Emitter κ)}
  {W : IrNode → List U32} {B : IrNode → Option (BasicBlockId × κ)} {limit : ℕ}
  {patch : κ → ℤ → Option (U32 → U32)} {ir : IrProgram}

/-- **The branch of node `j` does not reach its target `t`.**  A branch is the last word of its
node and leads to the first word of a block. -/
def OutOfReach (emitNode : Emitter κ → IrNode → Rust ε (Emitter κ)) (R : IrNode → ℕ)
    (ir : IrProgram) (j : ℕ) (t : BasicBlockId) : Prop :=
  ∃ node, ir.code[j]? = some node ∧ node.target = some t ∧ ∀ ip, ir.entry t = some ip →
    let d : ℤ := nodeOffset emitNode ir.code ip - (nodeOffset emitNode ir.code (j + 1) - 4)
    ¬ (-(R node : ℤ) ≤ d ∧ d < R node)

/-- The displacement of a branch, from the offsets of the nodes. -/
theorem displacement_eq (h : Emission emitNode ir.code W B limit) {j : ℕ} {node : IrNode}
    (hj : ir.code[j]? = some node) (hB : B node ≠ none) (ip : ℕ) :
    displacement W ir.code j node ip =
      (nodeOffset emitNode ir.code ip : ℤ) - (nodeOffset emitNode ir.code (j + 1) - 4) := by
  have hpos := List.length_pos_iff.2 (h.ne_nil node (List.mem_of_getElem? hj) hB)
  rw [nodeOffset_eq h, nodeOffset_eq h, wordPos_succ hj, displacement]
  omega

/-- Branches that can be patched as far as `R` are stuck iff they do not reach their targets. -/
theorem stuck_iff_outOfReach (h : Emission emitNode ir.code W B limit) {R : IrNode → ℕ}
    (hnode : ∀ node : IrNode, (node.target = none ∧ B node = none) ∨
      ∃ t k, node.target = some t ∧ B node = some (t, k) ∧ ∀ n : ℤ,
        patch k (4 * n) = none ↔ ¬ (-(R node : ℤ) ≤ 4 * n ∧ 4 * n < R node))
    (j : ℕ) (t : BasicBlockId) : Stuck W B patch ir j t ↔ OutOfReach emitNode R ir j t := by
  constructor
  · rintro ⟨node, k, hj, hB, hstuck⟩
    rcases hnode node with ⟨-, hnone⟩ | ⟨t', k', ht, hB', hpatch⟩
    · rw [hnone] at hB
      cases hB
    · cases hB'.symm.trans hB
      refine ⟨node, hj, ht, fun ip hentry => ?_⟩
      have hfar := (hpatch _).1 (hstuck ip hentry)
      have hdisp := displacement_eq h hj (by simp [hB]) ip
      rw [displacement] at hdisp
      rwa [hdisp] at hfar
  · rintro ⟨node, hj, ht, hfar⟩
    rcases hnode node with ⟨hnone, -⟩ | ⟨t', k, ht', hB, hpatch⟩
    · rw [hnone] at ht
      cases ht
    · cases ht'.symm.trans ht
      refine ⟨node, k, hj, hB, fun ip hentry => (hpatch _).2 ?_⟩
      have hdisp := displacement_eq h hj (by simp [hB]) ip
      rw [displacement] at hdisp
      rw [hdisp]
      exact hfar ip hentry

/-- `emission_outcome` in terms of reach, with the errors as the compiler returns them. -/
theorem emission_outOfReach {outOfRange : BasicBlockId → ε}
    (h : Emission emitNode ir.code W B limit) (hlimit : limit < 2 ^ 63)
    (hid : ∀ (i j : ℕ) (b b' : IrBasicBlock), ir.blocks[i]? = some b → ir.blocks[j]? = some b' →
      b.id = b'.id → i = j) (hinj : Function.Injective outOfRange) {R : IrNode → ℕ}
    (hnode : ∀ node : IrNode, (node.target = none ∧ B node = none) ∨
      ∃ t k, node.target = some t ∧ B node = some (t, k) ∧ ∀ n : ℤ,
        patch k (4 * n) = none ↔ ¬ (-(R node : ℤ) ≤ 4 * n ∧ 4 * n < R node))
    {δ : Type} {f : ε → δ} (hf : Function.Injective f) {x : Rust δ (List U8)}
    (hx : mapErr f (do
      let e ← Emitter.emitProgram emitNode .new ir
      e.patchRelocations outOfRange patch) = x) :
    ((∃ buf, x = .ok buf) ↔ ∀ j t, ¬ OutOfReach emitNode R ir j t) ∧
      ∀ t, x = fail (f (outOfRange t)) ↔
        ∃ j, OutOfReach emitNode R ir j t ∧ ∀ j' < j, ∀ t', ¬ OutOfReach emitNode R ir j' t' := by
  subst hx
  obtain ⟨hok, hfail⟩ := emission_outcome h (h.size.trans_lt hlimit) hid hinj (Eq.refl
    (do
      let e ← Emitter.emitProgram emitNode .new ir
      e.patchRelocations outOfRange patch))
  simp only [stuck_iff_outOfReach h hnode] at hok hfail
  refine ⟨Iff.trans ?_ hok, fun t => (mapErr_eq_fail hf).trans (hfail t)⟩
  simp only [mapErr_eq_ok]

end

theorem Aarch64.branch_reach (node : IrNode) : (node.target = none ∧ branchOf node = none) ∨
    ∃ t k, node.target = some t ∧ branchOf node = some (t, k) ∧ ∀ n : ℤ, patch k (4 * n) = none ↔
      ¬ (-(branchReach .aArch64 node : ℤ) ≤ 4 * n ∧ 4 * n < branchReach .aArch64 node) := by
  have hpatch : ∀ (k : Bool) (n : ℤ), patch k (4 * n) = none ↔
      ¬ (-(4 * reach k : ℕ) ≤ 4 * n ∧ 4 * n < (4 * reach k : ℕ)) := by
    intro k n
    rw [← patch_eq_some_iff, ← Option.ne_none_iff_exists', not_not]
  cases node with
  | branch cond t => exact Or.inr ⟨t, true, rfl, rfl, hpatch true⟩
  | jump t => exact Or.inr ⟨t, false, rfl, rfl, hpatch false⟩
  | _ => exact Or.inl ⟨rfl, rfl⟩

theorem Riscv.branch_reach (node : IrNode) : (node.target = none ∧ branchOf node = none) ∨
    ∃ t k, node.target = some t ∧ branchOf node = some (t, k) ∧ ∀ n : ℤ, patch k (4 * n) = none ↔
      ¬ (-(branchReach .riscV64 node : ℤ) ≤ 4 * n ∧ 4 * n < branchReach .riscV64 node) := by
  have hpatch : ∀ (lim : ℤ) (n : ℤ) (f : U32 → U32),
      (if 4 * n < -lim ∨ lim ≤ 4 * n then none else some f) = none ↔
        ¬ (-lim ≤ 4 * n ∧ 4 * n < lim) := by
    intro lim n f
    split_ifs with hfar
    · exact iff_of_true rfl (by omega)
    · exact iff_of_false id (by omega)
  cases node with
  | branch cond t => exact Or.inr ⟨t, .branch, rfl, rfl, fun n => hpatch (2 ^ 12) n _⟩
  | jump t => exact Or.inr ⟨t, .jal, rfl, rfl, fun n => hpatch (2 ^ 20) n _⟩
  | _ => exact Or.inl ⟨rfl, rfl⟩

/-! ### Compilation -/

variable [Profile]

/-- The branch of node `j`, on the target, does not reach `t`. -/
def Blocked (target : Target) (ir : IrProgram) (j : ℕ) (t : BasicBlockId) : Prop :=
  match target with
  | .aArch64 => OutOfReach Aarch64.emitNode (branchReach .aArch64) ir j t
  | .riscV64 => OutOfReach Riscv.emitNode (branchReach .riscV64) ir j t

/-- The program is decoded, accepted and lowered. -/
structure Lowers (raw : List RawInsn) (target : Target) (insns : List Insn) (ir : IrProgram) :
    Prop where
  decode : decodeProgram raw = .ok insns
  valid : Valid insns
  converges : ¬ PassChanges insns 31
  lower : lowerToIr insns (regmapForTarget target) = .ok ir

/-- **What the emission of a lowered program comes to.** -/
theorem Lowering.emitForTarget_outcome {insns : List Insn} {regmap : RegMap} {flags : List Bool}
    {pcToBb : List BasicBlockId} {nodes : ℕ → List IrNode} {ir : IrProgram}
    (h : Lowering insns regmap flags pcToBb nodes ir) (hacc : Accepted insns) (target : Target) :
    ((∃ code, emitForTarget ir target = .ok code) ↔ ∀ j t, ¬ Blocked target ir j t) ∧
      ∀ t, emitForTarget ir target = fail (rangeError target t) ↔
        ∃ j, Blocked target ir j t ∧ ∀ j' < j, ∀ t', ¬ Blocked target ir j' t' := by
  have hid : ∀ (i j : ℕ) (b b' : IrBasicBlock), ir.blocks[i]? = some b →
      ir.blocks[j]? = some b' → b.id = b'.id → i = j := fun i j b b' => h.id_injective hacc
  have hlimit : bufLimit < 2 ^ 63 := by
    unfold bufLimit
    omega
  cases target with
  | aArch64 =>
    obtain ⟨W, hW, -⟩ := h.aarch64_emission hacc
    exact emission_outOfReach hW hlimit hid
      (fun t t' heq => Aarch64.AArch64EmitError.relocationOutOfRange.inj heq) Aarch64.branch_reach
      (fun e e' heq => JitError.emitAArch64.inj heq) rfl
  | riscV64 =>
    obtain ⟨W, hW, -⟩ := h.riscv_emission hacc
    exact emission_outOfReach hW hlimit hid
      (fun t t' heq => Riscv.RiscVEmitError.relocationOutOfRange.inj heq) Riscv.branch_reach
      (fun e e' heq => JitError.emitRiscV.inj heq) rfl

omit [Profile] in
/-- Decoded programs are far shorter than a program on which the verifier panics. -/
theorem not_oversized {raw : List RawInsn} {insns : List Insn}
    (hdec : decodeProgram raw = .ok insns) : ¬ Oversized insns := by
  have hlen := (decoded_of_decodeProgram hdec).length_le
  unfold maxInsns at hlen
  unfold Oversized
  omega

/-- A lowered program is compiled as it is emitted. -/
theorem Lowers.compile_eq {raw : List RawInsn} {target : Target} {insns : List Insn}
    {ir : IrProgram} (h : Lowers raw target insns ir) : Accepted insns ∧
      ∃ n, compile raw target = (emitForTarget ir target).map fun code => ⟨code, ir, n⟩ := by
  have hver := (verifyProgram_eq_ok_iff (not_oversized h.decode)).2 ⟨h.valid, h.converges, rfl⟩
  refine ⟨accepted_of_ok h.decode hver, leaderCount insns, ?_⟩
  unfold compile
  rw [h.decode, mapErr_ok, ok_bind, hver, mapErr_ok, ok_bind, h.lower, mapErr_ok, ok_bind]
  cases emitForTarget ir target <;> rfl

/-- An error of an emitter is none of the decoder or of the verifier. -/
theorem emitForTarget_errors (ir : IrProgram) (target : Target) :
    Meets (emitForTarget ir target) (fun _ => True)
      fun f => (∀ e, f ≠ .err (.decode e)) ∧ ∀ e, f ≠ .err (.verify e) := by
  have hmap : ∀ {ε : Type} (f : ε → JitError) (x : Rust ε (List U8)),
      (∀ e e', f e ≠ .decode e') → (∀ e e', f e ≠ .verify e') →
        Meets (mapErr f x) (fun _ => True)
          fun f => (∀ e, f ≠ .err (.decode e)) ∧ ∀ e, f ≠ .err (.verify e) := by
    intro ε f x hdecode hverify
    cases x with
    | ok buf => trivial
    | error e =>
      cases e with
      | panic => exact ⟨fun _ h => (by cases h), fun _ h => (by cases h)⟩
      | err e =>
        exact ⟨fun e' h => hdecode e e' (Fault.err.inj h),
          fun e' h => hverify e e' (Fault.err.inj h)⟩
  cases target with
  | aArch64 => exact hmap _ _ (fun _ _ h => by cases h) fun _ _ h => by cases h
  | riscV64 => exact hmap _ _ (fun _ _ h => by cases h) fun _ _ h => by cases h

theorem Lowers.compile_ne {raw : List RawInsn} {target : Target} {insns : List Insn}
    {ir : IrProgram} (h : Lowers raw target insns ir) :
    (∀ e, compile raw target ≠ fail (.decode e)) ∧ ∀ e, compile raw target ≠ fail (.verify e) := by
  obtain ⟨-, n, heq⟩ := h.compile_eq
  have herrors := emitForTarget_errors ir target
  rw [heq]
  cases hemit : emitForTarget ir target with
  | ok code => exact ⟨fun _ h => (by cases h), fun _ h => (by cases h)⟩
  | error f =>
    rw [hemit] at herrors
    exact ⟨fun e h => herrors.1 e (Except.error.inj h), fun e h => herrors.2 e (Except.error.inj h)⟩

/-- Success and errors of a lowered program. -/
theorem Lowers.compile_iff {raw : List RawInsn} {target : Target} {insns : List Insn}
    {ir : IrProgram} (h : Lowers raw target insns ir) :
    ((∃ out, compile raw target = .ok out) ↔ ∀ j t, ¬ Blocked target ir j t) ∧
      ∀ t, compile raw target = fail (rangeError target t) ↔
        ∃ j, Blocked target ir j t ∧ ∀ j' < j, ∀ t', ¬ Blocked target ir j' t' := by
  obtain ⟨hacc, n, heq⟩ := h.compile_eq
  obtain ⟨flags, pcToBb, nodes, hlow⟩ := (lowerToIr_meets hacc _).of_ok h.lower
  obtain ⟨hok, hfail⟩ := hlow.emitForTarget_outcome hacc target
  rw [heq]
  refine ⟨Iff.trans ?_ hok, fun t => Iff.trans ?_ (hfail t)⟩
  · cases emitForTarget ir target with
    | ok code => exact iff_of_true ⟨_, rfl⟩ ⟨_, rfl⟩
    | error f => exact iff_of_false (fun ⟨_, h⟩ => by cases h) fun ⟨_, h⟩ => by cases h
  · cases emitForTarget ir target with
    | ok code => exact iff_of_false (fun h => by cases h) fun h => by cases h
    | error f =>
      show (Except.error f = fail (rangeError target t)) ↔ _
      exact ⟨fun h => congrArg _ (Except.error.inj h), fun h => congrArg _ (Except.error.inj h)⟩

/-- The stages of a compilation. -/
theorem exists_lowers_or (raw : List RawInsn) (target : Target) :
    (∃ insns ir, Lowers raw target insns ir) ∨
      (∃ e, compile raw target = fail (.decode e)) ∨
        ∃ e, compile raw target = fail (.verify e) := by
  have hne := compile_ne_panic raw target
  unfold compile at hne ⊢
  cases hdec : decodeProgram raw with
  | error f =>
    rw [hdec] at hne
    cases f with
    | panic => exact absurd rfl hne
    | err e => exact Or.inr (Or.inl ⟨e, rfl⟩)
  | ok insns =>
    rw [hdec, mapErr_ok, ok_bind] at hne
    rw [mapErr_ok, ok_bind]
    cases hver : verifyProgram insns with
    | error f =>
      rw [hver] at hne
      cases f with
      | panic => exact absurd rfl hne
      | err e => exact Or.inr (Or.inr ⟨e, rfl⟩)
    | ok n =>
      obtain ⟨hvalid, hlast, -⟩ := (verifyProgram_eq_ok_iff (not_oversized hdec)).1 hver
      obtain ⟨ir, hir, -⟩ :=
        (lowerToIr_meets (accepted_of_ok hdec hver) (regmapForTarget target)).exists_ok
      exact Or.inl ⟨insns, ir, hdec, hvalid, hlast, hir⟩

/-- **What compilation comes to.**  The compiler succeeds iff the program is decoded, valid, within
the budget of the analysis, and every branch of its code reaches its target.  It reports that a
block is out of range iff only the last of this fails, and the block is the target of the first
branch that does not reach it.  All other errors are those of the decoder and of the verifier. -/
theorem compile_outcome (raw : List RawInsn) (target : Target) :
    ((∃ out, compile raw target = .ok out) ↔
      ∃ insns ir, Lowers raw target insns ir ∧ ∀ j t, ¬ Blocked target ir j t) ∧
    (∀ t, compile raw target = fail (rangeError target t) ↔
      ∃ insns ir j, Lowers raw target insns ir ∧ Blocked target ir j t ∧
        ∀ j' < j, ∀ t', ¬ Blocked target ir j' t') ∧
    ((¬ ∃ insns ir, Lowers raw target insns ir) ↔
      (∃ e, compile raw target = fail (.decode e)) ∨
        ∃ e, compile raw target = fail (.verify e)) := by
  have hcases := exists_lowers_or raw target
  refine ⟨⟨?_, ?_⟩, fun t => ⟨?_, ?_⟩, ⟨hcases.resolve_left, ?_⟩⟩
  · rintro ⟨out, hout⟩
    rcases hcases with ⟨insns, ir, h⟩ | ⟨e, he⟩ | ⟨e, he⟩
    · exact ⟨insns, ir, h, h.compile_iff.1.1 ⟨out, hout⟩⟩
    · cases hout.symm.trans he
    · cases hout.symm.trans he
  · rintro ⟨insns, ir, h, hreach⟩
    exact h.compile_iff.1.2 hreach
  · intro hfail
    rcases hcases with ⟨insns, ir, h⟩ | ⟨e, he⟩ | ⟨e, he⟩
    · obtain ⟨j, hblocked, hfirst⟩ := (h.compile_iff.2 t).1 hfail
      exact ⟨insns, ir, j, h, hblocked, hfirst⟩
    · cases target <;> cases hfail.symm.trans he
    · cases target <;> cases hfail.symm.trans he
  · rintro ⟨insns, ir, j, h, hblocked, hfirst⟩
    exact (h.compile_iff.2 t).2 ⟨j, hblocked, hfirst⟩
  · rintro hfront ⟨insns, ir, h⟩
    rcases hfront with ⟨e, he⟩ | ⟨e, he⟩
    · exact h.compile_ne.1 e he
    · exact h.compile_ne.2 e he

end NVMirror
