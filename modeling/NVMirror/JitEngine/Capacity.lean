import NVMirror.JitEngine.Size
import NVMirror.JitAarch64.Relocation
import NVMirror.JitRiscv.Relocation

/-!
# The dry run bounds the emission

`compile_sized` reserves a buffer of `dry_run_size` bytes.  No program outgrows it, whatever its
nodes are: every node has at most as many words as the dry run counts for it (`AppendsAtMost`), and
labels have none.  On AArch64 an atomic operation at a negative offset has exactly that many.
-/

namespace NVMirror

open Rust

/-- Whole words that fit into `size` bytes. -/
structure Fits (size : ℕ) (code : List U8) : Prop where
  dvd : 4 ∣ code.length
  le : code.length ≤ size

section

variable {κ ε : Type} {emitNode : Emitter κ → IrNode → Rust ε (Emitter κ)} {k : ℕ} {e : Emitter κ}

/-- The emitter after some of the nodes. -/
theorem fits_of_take (H : Appends emitNode) (Hk : AppendsAtMost k emitNode) (ir : IrProgram) (j : ℕ)
    (h : (ir.listing.take j).foldlM emitNode .new = .ok e) :
    Fits (Emitter.calculateSize k ir) e.buf := by
  obtain ⟨ws, rel, hext⟩ := foldlM_extends H h
  have hnew : (Emitter.new : Emitter κ).buf.length = 0 := rfl
  refine ⟨⟨ws.length, by rw [hext.length_buf, hnew, Nat.zero_add]⟩, ?_⟩
  have hlen := foldlM_length_le Hk h
  have hall := sum_wordBound_listing k ir
  -- the nodes left are not counted
  have hsplit : ((ir.listing.take j).map (wordBound k)).sum ≤
      (ir.listing.map (wordBound k)).sum := by
    conv_rhs => rw [← List.take_append_drop j ir.listing, List.map_append, List.sum_append]
    exact Nat.le_add_right _ _
  rw [calculateSize_eq]
  omega

/-- Patching keeps the size. -/
theorem length_of_patchRelocations (H : Appends emitNode) {ir : IrProgram}
    (hemit : Emitter.emitProgram emitNode .new ir = .ok e) {outOfRange : BasicBlockId → ε}
    {patch : κ → ℤ → Option (U32 → U32)} {code : List U8}
    (hcode : e.patchRelocations outOfRange patch = .ok code) : code.length = e.buf.length := by
  rw [emitProgram_eq_foldlM] at hemit
  obtain ⟨ws, rel, hext⟩ := foldlM_extends H hemit
  have hbuf : e.buf = ofWords ws := hext.buf
  have hrel : e.relocations = rel := hext.relocations
  have heq : e = ⟨ofWords ws, e.bbOffsets, rel⟩ := by rw [← hbuf, ← hrel]
  have hoffset : ∀ r ∈ rel, ∃ i < ws.length, r.offset = 4 * i := by
    intro r hr
    obtain ⟨i, hi, hoff⟩ := hext.bounds r hr
    exact ⟨i, hi, hoff.trans (Nat.zero_add _)⟩
  rw [heq] at hcode
  obtain ⟨ws', rfl, hpatched⟩ := patched_of_ok hoffset hext.pairwise hcode
  rw [hbuf, length_ofWords, length_ofWords, hpatched.length_eq]

/-- The whole program, before and after patching. -/
theorem fits_of_ok (H : Appends emitNode) (Hk : AppendsAtMost k emitNode) {ir : IrProgram}
    (hemit : Emitter.emitProgram emitNode .new ir = .ok e) :
    Fits (Emitter.calculateSize k ir) e.buf ∧
      ∀ (outOfRange : BasicBlockId → ε) (patch : κ → ℤ → Option (U32 → U32)) (code : List U8),
        e.patchRelocations outOfRange patch = .ok code →
          Fits (Emitter.calculateSize k ir) code := by
  have hall : (ir.listing.take ir.listing.length).foldlM emitNode .new = .ok e := by
    rw [List.take_length, ← emitProgram_eq_foldlM, hemit]
  have hfits := fits_of_take H Hk ir _ hall
  refine ⟨hfits, fun outOfRange patch code hcode => ?_⟩
  have hlen := length_of_patchRelocations H hemit hcode
  exact ⟨by rw [hlen]; exact hfits.dvd, by rw [hlen]; exact hfits.le⟩

/-- A node that appends words and keeps to the bound. -/
theorem appendsAtMost_of (hlabel : ∀ e bb, emitNode e (.label bb) = e.emitLabel bb)
    (hnode : ∀ {node : IrNode}, (∀ bb, node ≠ .label bb) → ∀ {e e' : Emitter κ},
      emitNode e node = .ok e' → ∃ ws branch, e' = e.append ws branch ∧ ws.length ≤ k) :
    AppendsAtMost k emitNode := by
  intro e e' node h
  by_cases hlab : ∃ bb, node = .label bb
  · obtain ⟨bb, rfl⟩ := hlab
    rw [hlabel] at h
    obtain ⟨bbOffsets, heq, -⟩ := emitLabel_eq (ε := ε) e bb
    rw [heq] at h
    cases h
    exact Nat.le_add_right _ _
  · have hno : ∀ bb, node ≠ .label bb := fun bb hbb => hlab ⟨bb, hbb⟩
    obtain ⟨ws, branch, rfl, hlen⟩ := hnode hno h
    have hbound : wordBound k node = k := by
      cases node with
      | label bb => exact absurd rfl (hno bb)
      | _ => rfl
    rw [hbound]
    simp only [Emitter.append, List.length_append, length_ofWords]
    omega

end

variable [Profile]

theorem Aarch64.appends_emitNode : Appends Aarch64.emitNode := by
  intro e e' node h
  by_cases hlabel : ∃ bb, node = .label bb
  · obtain ⟨bb, rfl⟩ := hlabel
    exact Or.inl ⟨bb, rfl, h⟩
  · have hno : ∀ bb, node ≠ .label bb := fun bb hbb => hlabel ⟨bb, hbb⟩
    obtain ⟨ws, heq, -, hne⟩ := Aarch64.exists_append_of_ok hno h
    exact Or.inr ⟨hno, ws, Aarch64.branchOf node, heq, hne⟩

theorem Aarch64.appendsAtMost_emitNode :
    AppendsAtMost Aarch64.maxExpansionRatio Aarch64.emitNode := by
  refine appendsAtMost_of (fun e bb => rfl) fun hno _ _ h => ?_
  obtain ⟨ws, heq, hlen, -⟩ := Aarch64.exists_append_of_ok hno h
  exact ⟨ws, _, heq, hlen⟩

theorem Riscv.appendsAtMost_emitNode : AppendsAtMost Riscv.maxExpansionRatio Riscv.emitNode := by
  refine appendsAtMost_of (fun e bb => rfl) fun hno _ _ h => ?_
  obtain ⟨ws, heq, hlen, -⟩ := Riscv.exists_append_of_ok hno h
  exact ⟨ws, _, heq, hlen.trans (by decide)⟩

/-- **The dry run bounds the emission.**  For every program, on both targets: the buffer, and the
finalized code, hold whole words and at most `calculate_size` bytes.  At no node does the buffer
outgrow the capacity `compile_sized` reserves. -/
theorem emission_fits (ir : IrProgram) :
    (∀ e, Aarch64.emitProgram .new ir = .ok e → Fits (Aarch64.calculateSize ir) e.buf ∧
      ∀ code, Aarch64.finalize e = .ok code → Fits (Aarch64.calculateSize ir) code) ∧
    (∀ e, Riscv.emitProgram .new ir = .ok e → Fits (Riscv.calculateSize ir) e.buf ∧
      ∀ code, Riscv.finalize e = .ok code → Fits (Riscv.calculateSize ir) code) ∧
    (∀ j e, (ir.listing.take j).foldlM Aarch64.emitNode .new = .ok e →
      e.buf.length ≤ dryRunSize ir .aArch64) ∧
    ∀ j e, (ir.listing.take j).foldlM Riscv.emitNode .new = .ok e →
      e.buf.length ≤ dryRunSize ir .riscV64 := by
  refine ⟨fun e he => ?_, fun e he => ?_, fun j e he => ?_, fun j e he => ?_⟩
  · obtain ⟨hbuf, hcode⟩ := fits_of_ok Aarch64.appends_emitNode Aarch64.appendsAtMost_emitNode he
    exact ⟨hbuf, fun code h => hcode _ _ code h⟩
  · obtain ⟨hbuf, hcode⟩ := fits_of_ok Riscv.appends_emitNode Riscv.appendsAtMost_emitNode he
    exact ⟨hbuf, fun code h => hcode _ _ code h⟩
  · exact (fits_of_take Aarch64.appends_emitNode Aarch64.appendsAtMost_emitNode ir j he).le
  · exact (fits_of_take Riscv.appends_emitNode Riscv.appendsAtMost_emitNode ir j he).le

/-- An atomic operation at a negative offset. -/
def atomicBelow : IrProgram := ⟨[⟨⟨0⟩, [.atomic .dw .add ⟨0⟩ ⟨1⟩ (-8)]⟩], 0⟩

omit [Profile] in
/-- `emission_fits` at `atomicBelow`: the node takes all the eight words counted for it. -/
theorem emission_fits_atomicBelow :
    ∃ e, @Aarch64.emitProgram debug .new atomicBelow = .ok e ∧ e.buf.length = 32 ∧
      Aarch64.calculateSize atomicBelow = 36 ∧ Fits (Aarch64.calculateSize atomicBelow) e.buf :=
  ⟨_, rfl, rfl, rfl, ((@emission_fits debug atomicBelow).1 _ rfl).1⟩

end NVMirror
