import NVMirror.EbpfCore.Append
import NVMirror.JitEngine.Capacity

/-!
# Compilation into a buffer of fixed size (`compile_sized`)

`compile_sized` computes the size of the code first and then emits into a buffer of that capacity.
Here the buffer cannot grow: a node that does not fit is a panic.  `compileSized_eq` says that this
never happens, and that both ways to compile give the same result.
-/

namespace NVMirror

open Rust Leaders

variable [Profile]

/-- Emit a node into a buffer of `size` bytes. -/
def Emitter.emitWithin {κ ε : Type} (size : ℕ) (emitNode : Emitter κ → IrNode → Rust ε (Emitter κ))
    (e : Emitter κ) (node : IrNode) : Rust ε (Emitter κ) := do
  let e ← emitNode e node
  if e.buf.length ≤ size then .ok e else panic

/-- The finished code, from a buffer of `size` bytes. -/
def emitForTargetWithSize (ir : IrProgram) (target : Target) (size : ℕ) : Rust JitError (List U8) :=
  match target with
  | .aArch64 => mapErr .emitAArch64 do
    let emitter ← Emitter.emitProgram (Emitter.emitWithin size Aarch64.emitNode) .new ir
    Aarch64.finalize emitter
  | .riscV64 => mapErr .emitRiscV do
    let emitter ← Emitter.emitProgram (Emitter.emitWithin size Riscv.emitNode) .new ir
    Riscv.finalize emitter

/-- Two-pass compilation: first compute size, then emit. -/
def compileSized (rawInsns : List RawInsn) (target : Target) : Rust JitError JitOutput := do
  let insns ← mapErr .decode (decodeProgram rawInsns)
  let numBlocks ← mapErr .verify (verifyProgram insns)
  let ir ← mapErr Empty.elim (lowerToIr insns (regmapForTarget target))
  let size := dryRunSize ir target
  let code ← emitForTargetWithSize ir target size
  pure { code, ir, numBlocks }

omit [Profile] in
/-- The buffer never has to grow. -/
theorem emitProgram_within {κ ε : Type} {emitNode : Emitter κ → IrNode → Rust ε (Emitter κ)} {k : ℕ}
    (H : Appends emitNode) (Hk : AppendsAtMost k emitNode) (ir : IrProgram) :
    Emitter.emitProgram (Emitter.emitWithin (Emitter.calculateSize k ir) emitNode) .new ir =
      Emitter.emitProgram emitNode .new ir := by
  rw [emitProgram_eq_foldlM, emitProgram_eq_foldlM]
  exact foldlM_guard (P := fun e => e.buf.length ≤ Emitter.calculateSize k ir)
    fun j e he => (fits_of_take H Hk ir j he).le

theorem emitForTargetWithSize_eq (ir : IrProgram) (target : Target) :
    emitForTargetWithSize ir target (dryRunSize ir target) = emitForTarget ir target := by
  cases target with
  | aArch64 =>
    have hwithin := emitProgram_within Aarch64.appends_emitNode Aarch64.appendsAtMost_emitNode ir
    exact congrArg (fun x => mapErr JitError.emitAArch64 (x >>= Aarch64.finalize)) hwithin
  | riscV64 =>
    have hwithin := emitProgram_within Riscv.appends_emitNode Riscv.appendsAtMost_emitNode ir
    exact congrArg (fun x => mapErr JitError.emitRiscV (x >>= Riscv.finalize)) hwithin

/-- Finalized code fits. -/
theorem fits_of_emitForTarget {ir : IrProgram} {target : Target} {code : List U8}
    (h : emitForTarget ir target = .ok code) : Fits (dryRunSize ir target) code := by
  cases target with
  | aArch64 =>
    obtain ⟨e, he, hcode⟩ := bind_eq_ok.1 (mapErr_eq_ok.1 h)
    exact (fits_of_ok Aarch64.appends_emitNode Aarch64.appendsAtMost_emitNode he).2 _ _ code hcode
  | riscV64 =>
    obtain ⟨e, he, hcode⟩ := bind_eq_ok.1 (mapErr_eq_ok.1 h)
    exact (fits_of_ok Riscv.appends_emitNode Riscv.appendsAtMost_emitNode he).2 _ _ code hcode

omit [Profile] in
/-- The dry run is linear in the length of the program. -/
theorem Lowering.dryRunSize_le {insns : List Insn} {regmap : RegMap} {flags : List Bool}
    {pcToBb : List BasicBlockId} {nodes : ℕ → List IrNode} {ir : IrProgram}
    (h : Lowering insns regmap flags pcToBb nodes ir) (hne : insns ≠ []) (target : Target) :
    dryRunSize ir target ≤ 40 + 84 * insns.length := by
  have hnodes := (h.code_bounds hne).1
  have hblocks := length_positions_le flags
  rw [h.marks.length_eq, ← h.length_eq] at hblocks
  cases target with
  | aArch64 =>
    show Emitter.calculateSize Aarch64.maxExpansionRatio ir ≤ _
    rw [calculateSize_eq]
    unfold Aarch64.maxExpansionRatio
    omega
  | riscV64 =>
    show Emitter.calculateSize Riscv.maxExpansionRatio ir ≤ _
    rw [calculateSize_eq]
    unfold Riscv.maxExpansionRatio
    omega

/-- **Both ways to compile agree**, on every input and for both targets, and the buffer that
`compile_sized` reserves never has to grow.  The code is whole words that fill it at most, and the
buffer takes at most 40 bytes and 84 for each instruction. -/
theorem compileSized_eq (rawInsns : List RawInsn) (target : Target) :
    compileSized rawInsns target = compile rawInsns target ∧
      ∀ out, compile rawInsns target = .ok out →
        4 ∣ out.code.length ∧ out.code.length ≤ dryRunSize out.ir target ∧
          dryRunSize out.ir target ≤ 40 + 84 * rawInsns.length := by
  constructor
  · unfold compileSized compile
    congr 1
    funext insns
    congr 1
    funext numBlocks
    congr 1
    funext ir
    dsimp only
    rw [emitForTargetWithSize_eq]
  · intro out hout
    obtain ⟨insns, hdec, -⟩ := bind_eq_ok.1 hout
    rw [mapErr_eq_ok] at hdec
    obtain ⟨hacc, hir, hemit⟩ := compile_stages hdec hout
    obtain ⟨flags, pcToBb, nodes, h⟩ := (lowerToIr_meets hacc _).of_ok hir
    have hfits := fits_of_emitForTarget hemit
    have hsize := h.dryRunSize_le hacc.ne_nil target
    have hlen : insns.length ≤ rawInsns.length := by
      rw [← sum_slots_of_decodeProgram hdec, sum_slots]
      exact Nat.le_add_right _ _
    exact ⟨hfits.dvd, hfits.le, by omega⟩

end NVMirror
