import NVMirror.JitEngine.Compile
import NVMirror.JitIr.Image
import NVMirror.JitRegalloc.Preservation

/-!
# Size and success

Every branch of a lowered program names one of its blocks (`Lowering.target_mem`), so emission can
fail only because a displacement is too large.  The size `calculate_size` computes bounds every
displacement, and `compile_ok_of_size` says which sizes rule this failure out.
-/

namespace NVMirror

open Rust Leaders

variable {insns : List Insn} {regmap : RegMap} {flags : List Bool} {pcToBb : List BasicBlockId}
  {nodes : ℕ → List IrNode} {ir : IrProgram}

/-! ### The computed size -/

/-- The dry run counts a word for each block and the most words of each node. -/
theorem calculateSize_eq (ratio : ℕ) (ir : IrProgram) :
    Emitter.calculateSize ratio ir = 4 * (ir.blocks.length + ratio * ir.code.length) := by
  have hfold : ∀ (blocks : List IrBasicBlock) (count : ℕ),
      blocks.foldl (fun count block => count + 1 + block.nodes.length * ratio) count =
        count + blocks.length + ratio * (blocks.flatMap IrBasicBlock.nodes).length := by
    intro blocks
    induction blocks with
    | nil => simp
    | cons b rest ih =>
      intro count
      rw [List.foldl_cons, ih, List.length_cons, List.flatMap_cons, List.length_append,
        Nat.mul_add, Nat.mul_comm b.nodes.length]
      omega
  unfold Emitter.calculateSize IrProgram.code
  dsimp only
  rw [hfold]
  omega

/-- `dry_run_size` -/
def dryRunSize (ir : IrProgram) : Target → ℕ
  | .aArch64 => Aarch64.calculateSize ir
  | .riscV64 => Riscv.calculateSize ir

/-! ### Targets -/

namespace Lowering

/-- **Every target is the id of a block.** -/
theorem target_mem (h : Lowering insns regmap flags pcToBb nodes ir) (hacc : Accepted insns)
    {node : IrNode} (hnode : node ∈ ir.code) {t : BasicBlockId} (ht : node.target = some t) :
    ∃ (i : ℕ) (b : IrBasicBlock), ir.blocks[i]? = some b ∧ b.id = t := by
  obtain ⟨j, hj⟩ := List.getElem?_of_mem hnode
  rcases h.code_cases hacc.ne_nil hj with ⟨-, rfl⟩ | ⟨pc, insn, k, hget, hk, -⟩
  · cases ht
  · obtain ⟨off, hoff, hbb⟩ := jumpOff_of_target (h.lower_eq pc insn hget)
      (List.mem_of_getElem? hk) ht
    obtain ⟨q, -, -, hset, hbb'⟩ := h.target hacc hget hoff
    rw [hbb] at hbb'
    cases hbb'
    have hb := List.getElem?_eq_getElem (h.rank_lt hset)
    refine ⟨_, _, hb, BasicBlockId.eq_of_toNat_eq ?_⟩
    exact (h.block_id hacc hb).trans (h.id_toNat hacc.length_lt (h.rank_lt hset)).symm

/-- No two blocks have the same id. -/
theorem id_injective (h : Lowering insns regmap flags pcToBb nodes ir) (hacc : Accepted insns)
    {i j : ℕ} {b b' : IrBasicBlock} (hb : ir.blocks[i]? = some b) (hb' : ir.blocks[j]? = some b')
    (hid : b.id = b'.id) : i = j := by
  rw [← h.block_id hacc hb, ← h.block_id hacc hb', hid]

end Lowering

/-! ### Success -/

variable {κ ε : Type} {emitNode : Emitter κ → IrNode → Rust ε (Emitter κ)}
  {W : IrNode → List U32} {B : IrNode → Option (BasicBlockId × κ)} {limit : ℕ}

/-- **Emission succeeds** if every target is a block, every block has an id of its own, and every
displacement within the code can be patched. -/
theorem emission_ok (outOfRange : BasicBlockId → ε) (patch : κ → ℤ → Option (U32 → U32))
    (h : Emission emitNode ir.code W B limit) (hsize : 4 * (ir.code.flatMap W).length < 2 ^ 63)
    (hid : ∀ (i j : ℕ) (b b' : IrBasicBlock), ir.blocks[i]? = some b → ir.blocks[j]? = some b' →
      b.id = b'.id → i = j)
    (htarget : ∀ node ∈ ir.code, ∀ t k, B node = some (t, k) →
      ∃ (i : ℕ) (b : IrBasicBlock), ir.blocks[i]? = some b ∧ b.id = t)
    (hpatch : ∀ k (d : ℤ), -(4 * (ir.code.flatMap W).length : ℕ) ≤ d →
      d ≤ (4 * (ir.code.flatMap W).length : ℕ) → patch k d ≠ none) :
    ∃ buf, (do
      let e ← Emitter.emitProgram emitNode .new ir
      e.patchRelocations outOfRange patch) = .ok buf := by
  obtain ⟨bbOffsets, hlabels, -, hmeets⟩ := emission_meets outOfRange patch h hsize
  have hno : ∀ r ∈ relocs W B 0 ir.code, ¬ Unpatchable patch bbOffsets r := by
    intro r hr hun
    obtain ⟨-, hle, -⟩ := relocs_bounds h.ne_nil hr
    have hlabel := h.not_mem_of_relocs hr
    obtain ⟨j, node, t, k, hj, hB, rfl⟩ := mem_relocs.1 hr
    obtain ⟨i, b, hb, rfl⟩ := htarget node (List.mem_of_getElem? hj) t k hB
    have hoff := hlabels.of_block hb hlabel fun j' b' hb' heq => hid j' i b' b hb' hb heq
    have hlen := length_flatMap_take_le W ir i
    dsimp only at hle
    refine hpatch k _ ?_ ?_ (hun _ hoff)
    · dsimp only
      omega
    · dsimp only
      omega
  have hfault : ∀ f : Fault ε, (∃ r ∈ relocs W B 0 ir.code, f = .err (outOfRange r.target) ∧
      Unpatchable patch bbOffsets r) → False := by
    rintro f ⟨r, hr, -, hun⟩
    exact hno r hr hun
  obtain ⟨buf, hbuf, -⟩ := (hmeets.mono (fun _ h => h) hfault).exists_ok
  exact ⟨buf, hbuf⟩

variable [Profile]

/-- Up to this size no displacement is out of range. -/
def sizeLimit : Target → ℕ
  | .aArch64 => 2 ^ 20
  | .riscV64 => 4096

/-- A lowered program of limited size can be emitted. -/
theorem Lowering.emitForTarget_ok (h : Lowering insns regmap flags pcToBb nodes ir)
    (hacc : Accepted insns) {target : Target} (hsize : dryRunSize ir target ≤ sizeLimit target) :
    ∃ code, emitForTarget ir target = .ok code := by
  have hpos : 0 < ir.blocks.length := by
    have := h.rank_lt (h.marks.isSet_zero hacc.ne_nil)
    omega
  have hid : ∀ (i j : ℕ) (b b' : IrBasicBlock), ir.blocks[i]? = some b →
      ir.blocks[j]? = some b' → b.id = b'.id → i = j := fun i j b b' => h.id_injective hacc
  cases target with
  | aArch64 =>
    obtain ⟨W, hW, hlen⟩ := h.aarch64_emission hacc
    have hmax : Aarch64.calculateSize ir ≤ 2 ^ 20 := hsize
    rw [Aarch64.calculateSize, calculateSize_eq] at hmax
    have htarget : ∀ node ∈ ir.code, ∀ t k, Aarch64.branchOf node = some (t, k) →
        ∃ (i : ℕ) (b : IrBasicBlock), ir.blocks[i]? = some b ∧ b.id = t :=
      fun node hnode t k hB => h.target_mem hacc hnode (Aarch64.target_of_branchOf hB)
    have hpatch : ∀ k (d : ℤ), -(4 * (ir.code.flatMap W).length : ℕ) ≤ d →
        d ≤ (4 * (ir.code.flatMap W).length : ℕ) → Aarch64.patch k d ≠ none := by
      intro k d h1 h2
      have hdiv := Int.mul_tdiv_add_tmod d 4
      have hlow := Int.lt_tmod_of_pos d (show (0 : ℤ) < 4 by decide)
      have hhigh := Int.tmod_lt_of_pos d (show (0 : ℤ) < 4 by decide)
      unfold Aarch64.patch
      dsimp only
      split_ifs
      · omega
      · exact Option.some_ne_none _
      · omega
      · exact Option.some_ne_none _
    obtain ⟨buf, hbuf⟩ := emission_ok Aarch64.AArch64EmitError.relocationOutOfRange Aarch64.patch hW
      (by omega) hid htarget hpatch
    exact ⟨buf, mapErr_eq_ok.2 hbuf⟩
  | riscV64 =>
    obtain ⟨W, hW, hlen⟩ := h.riscv_emission hacc
    have hmax : Riscv.calculateSize ir ≤ 4096 := hsize
    rw [Riscv.calculateSize, calculateSize_eq] at hmax
    have htarget : ∀ node ∈ ir.code, ∀ t k, Riscv.branchOf node = some (t, k) →
        ∃ (i : ℕ) (b : IrBasicBlock), ir.blocks[i]? = some b ∧ b.id = t :=
      fun node hnode t k hB => h.target_mem hacc hnode (Riscv.target_of_branchOf hB)
    have hpatch : ∀ k (d : ℤ), -(4 * (ir.code.flatMap W).length : ℕ) ≤ d →
        d ≤ (4 * (ir.code.flatMap W).length : ℕ) → Riscv.patch k d ≠ none := by
      intro k d h1 h2
      unfold Riscv.patch
      cases k <;>
      · dsimp only
        rw [if_neg (by omega)]
        exact Option.some_ne_none _
    obtain ⟨buf, hbuf⟩ := emission_ok Riscv.RiscVEmitError.relocationOutOfRange Riscv.patch hW
      (by omega) hid htarget hpatch
    exact ⟨buf, mapErr_eq_ok.2 hbuf⟩

/-- **No spurious emission failure.**  The lowering of an accepted program names only its own
blocks, and the program is compiled if the dry run gives at most a megabyte on AArch64, or 4096
bytes on RISC-V. -/
theorem compile_ok_of_size {raw : List RawInsn} {n : ℕ} (hdec : decodeProgram raw = .ok insns)
    (hver : verifyProgram insns = .ok n) (target : Target) :
    ∃ ir, lowerToIr insns (regmapForTarget target) = .ok ir ∧
      (∀ node ∈ ir.code, ∀ t, node.target = some t → ∃ b ∈ ir.blocks, b.id = t) ∧
      (dryRunSize ir target ≤ sizeLimit target → ∃ out, compile raw target = .ok out) := by
  have hacc := accepted_of_ok hdec hver
  obtain ⟨ir, hir, flags, pcToBb, nodes, h⟩ :=
    (lowerToIr_meets hacc (regmapForTarget target)).exists_ok
  refine ⟨ir, hir, fun node hnode t ht => ?_, fun hsize => ?_⟩
  · obtain ⟨i, b, hb, hid⟩ := h.target_mem hacc hnode ht
    exact ⟨b, List.mem_of_getElem? hb, hid⟩
  · obtain ⟨code, hcode⟩ := h.emitForTarget_ok hacc hsize
    refine ⟨⟨code, ir, n⟩, ?_⟩
    unfold compile
    rw [hdec]
    show (mapErr JitError.verify (verifyProgram insns) >>= _) = _
    rw [hver]
    show (mapErr Empty.elim (lowerToIr insns (regmapForTarget target)) >>= _) = _
    rw [hir]
    show (emitForTarget ir target >>= _) = _
    rw [hcode]
    rfl

omit [Profile] in
/-- `compile_ok_of_size` at the program `jumpOverLddw`, for RISC-V: it is compiled. -/
theorem compile_ok_of_size_jumpOverLddw :
    ∃ ir, @lowerToIr debug jumpOverLddwInsns (regmapForTarget .riscV64) = .ok ir ∧
      (∀ node ∈ ir.code, ∀ t, node.target = some t → ∃ b ∈ ir.blocks, b.id = t) ∧
      dryRunSize ir .riscV64 = 212 ∧ ∃ out, @compile debug jumpOverLddw .riscV64 = .ok out := by
  have hver : verifyProgram jumpOverLddwInsns = .ok 3 := rfl
  obtain ⟨ir, hir, htargets, hok⟩ :=
    @compile_ok_of_size _ debug _ _ decode_jumpOverLddw hver .riscV64
  have hdry : (@lowerToIr debug jumpOverLddwInsns (regmapForTarget .riscV64)).toOption.map
      (fun ir => dryRunSize ir .riscV64) = some 212 := by
    decide +kernel
  rw [hir] at hdry
  have hsize : dryRunSize ir .riscV64 = 212 := Option.some.inj hdry
  exact ⟨ir, hir, htargets, hsize, hok (hsize.trans_le (by decide))⟩

end NVMirror
