import NVMirror.EbpfCore.Exits

/-!
# Precision of the verifier's errors

Errors are raised in the middle of the analysis, on sets of registers that are not final.  Each of
these sets misses a register only if some path to the instruction does (`OnPaths`), and at
convergence a block that is not marked reachable cannot be reached.  `verifyProgram_justified`
says what each error means for the program.
-/

namespace NVMirror

open Rust Leaders Relation MustAnalysis

variable {insns : List Insn} {flags : List Bool}

/-- `I` are the registers initialised on some path from the entry to `pc`. -/
abbrev PathInits (insns : List Insn) (pc : ℕ) (I : Set BpfReg) : Prop :=
  Tracks (Edge insns) (transferAt insns) 0 entryInits pc I

/-- **What an error says about the program.** -/
def VerifyError.Justified (insns : List Insn) : VerifyError → Prop
  | .uninitializedRegRead pc reg =>
    (∃ insn, insns[pc]? = some insn ∧ reg ∈ insn.reads) ∧ ∃ I, PathInits insns pc I ∧ reg ∉ I
  | .writeToR10 pc =>
    Reach insns 0 pc ∧ ∃ insn, insns[pc]? = some insn ∧ BpfReg.r10 ∈ insn.writes
  | .stackOutOfBounds pc off =>
    Reach insns 0 pc ∧ ∃ insn width, insns[pc]? = some insn ∧
      insn.memAccess = some (BpfReg.r10, off, width) ∧
      ¬ (-(stackSize : ℤ) ≤ off.toInt ∧ off.toInt < 0)
  | .unreachableCode pc => ¬ Reach insns 0 pc
  | _ => True

/-! ### Paths to an instruction -/

/-- Every instruction treats the registers apart. -/
theorem Insn.transfer_separable (insn : Insn) : Separable insn.transfer := by
  intro I r hr
  have hunion : r ∉ I ∪ insn.writes → r ∉ I ∧ ∀ J, r ∉ J → r ∉ J ∪ insn.writes := by
    intro h
    rw [Set.mem_union, not_or] at h
    refine ⟨h.1, fun J hJ hmem => ?_⟩
    exact hmem.elim hJ h.2
  cases insn with
  | call funcId =>
    by_cases hclobber : r ∈ callClobbers
    · exact Or.inl fun J hJ => hJ.2 hclobber
    · have hnot : r ∉ insert BpfReg.r0 I := fun hmem => hr ⟨hmem, hclobber⟩
      rw [Set.mem_insert_iff, not_or] at hnot
      refine Or.inr ⟨hnot.2, fun J hJ hmem => ?_⟩
      rcases Set.mem_insert_iff.1 hmem.1 with h0 | hJ'
      · exact hnot.1 h0
      · exact hJ hJ'
  | _ => exact Or.inr (hunion hr)

theorem transferAt_separable (insns : List Insn) (pc : ℕ) : Separable (transferAt insns pc) := by
  unfold transferAt
  cases insns[pc]? with
  | none => exact fun I r hr => Or.inr ⟨hr, fun J hJ => hJ⟩
  | some insn => exact insn.transfer_separable

/-- **Intermediate states are meets over paths.** -/
theorem flowClosed_onPaths (insns : List Insn) :
    FlowClosed insns (OnPaths (Edge insns) (transferAt insns) 0 entryInits) where
  entry := OnPaths.start
  edge pc _ _ h hedge := h.step hedge (transferAt_separable insns pc)
  inter _ _ _ h h' := h.inter h'

/-! ### Unreachable blocks -/

section

variable {P : ℕ → Set BpfReg → Prop} {bbs : List BasicBlock}

/-- At convergence the blocks of all reachable instructions are marked. -/
theorem Converged.reachable_of_reach (h : Converged insns flags P bbs) {pc : ℕ}
    (hreach : Reach insns 0 pc) {i : ℕ} {b : BasicBlock} (hb : bbs[i]? = some b)
    (hle : b.start ≤ pc) (hlt : pc < b.stop) : b.reachable = true := by
  -- an instruction determines its block
  have hindex : ∀ {pc j : ℕ} {b' : BasicBlock}, bbs[j]? = some b' → b'.start ≤ pc →
      pc < b'.stop → j = rank flags (pc + 1) - 1 := by
    intro pc j b' hb' hle' hlt'
    have hblock := h.isBlock j b' hb'
    rw [rank_of_mem_block hblock.start_eq hle' (hblock.stop_eq ▸ hlt'), Nat.add_sub_cancel]
  induction hreach generalizing i b with
  | refl =>
    have hfirst := getElem?_positions_rank (h.marks.isSet_zero h.ne_nil)
    rw [rank_zero] at hfirst
    obtain rfl : i = 0 := by
      have hone := rank_succ_of_isSet (h.marks.isSet_zero h.ne_nil)
      rw [hindex hb hle hlt, hone, rank_zero]
    exact (h.entry b hb).1
  | @tail p q hreach hedge ih =>
    obtain ⟨j, b', hb', hle', hlt'⟩ := h.exists_block h.marks hedge.lt
    have hr' := ih hb' hle' hlt'
    have hblock' := h.isBlock j b' hb'
    by_cases hlast : p + 1 < b'.stop
    · -- inside a block
      obtain rfl :=
        (edge_iff_of_mem_block h.marks hblock'.start_eq hle' (hblock'.stop_eq ▸ hlast)).1 hedge
      obtain rfl : i = j := by
        rw [hindex hb hle hlt, hindex hb' (Nat.le_succ_of_le hle') hlast]
      cases hb.symm.trans hb'
      exact hr'
    · -- from the last instruction of a block to a successor
      obtain rfl : p = b'.stop - 1 := by omega
      have hset := isSet_of_edge_last h.marks hblock'.stop_eq (by omega) hedge
      have hmem := (hblock'.mem_successors _).2 ⟨q, hedge, rfl⟩
      have hj := (List.getElem?_eq_some_iff.1 hb').1
      obtain ⟨b'', hb'', hr'', -⟩ := (h.settled j hj b' hb' hr').2 _ hmem
      obtain ⟨hstart, hlt''⟩ := h.start_eq_of_rank hset hb''
      obtain rfl : i = rank flags q := by
        rw [hindex hb hle hlt, hindex hb'' hstart.le hlt'']
      cases hb.symm.trans hb''
      exact hr''

end

/-! ### Errors -/

/-- **Errors are precise.**  If the verifier reports a read of an uninitialised register, some path
to the instruction leaves the register uninitialised; a reported write to `R10` or stack access
is that of an instruction some path reaches; no path reaches code reported as unreachable. -/
theorem verifyProgram_justified {e : VerifyError} (h : verifyProgram insns = .error (.err e)) :
    e.Justified insns := by
  have hmeets := verifyProgram_flow (flowClosed_onPaths insns)
  rw [h] at hmeets
  have hrej : Rejection insns _ (.err e) := hmeets
  cases e with
  | uninitializedRegRead pc reg =>
    obtain ⟨insn, I, hget, hpaths, -, hreads, hnot⟩ := hrej
    exact ⟨⟨insn, hget, hreads⟩, hpaths.missed reg hnot⟩
  | writeToR10 pc =>
    obtain ⟨insn, I, hget, hpaths, -, hwrites⟩ := hrej
    obtain ⟨J, hJ⟩ := hpaths.reached
    exact ⟨hJ.reaches, insn, hget, hwrites⟩
  | stackOutOfBounds pc off =>
    obtain ⟨insn, I, hget, hpaths, -, width, hmem, hout⟩ := hrej
    obtain ⟨J, hJ⟩ := hpaths.reached
    exact ⟨hJ.reaches, insn, width, hget, hmem, hout⟩
  | unreachableCode pc =>
    obtain ⟨flags, bbs, hconv, b, hb, rfl, hr⟩ := hrej
    intro hreach
    obtain ⟨i, hi⟩ := List.getElem?_of_mem hb
    have hblock := hconv.isBlock i b hi
    have hlt : b.start < b.stop := hblock.stop_eq ▸ start_lt_blockStop hblock.start_eq
    rw [hconv.reachable_of_reach hreach hi le_rfl hlt] at hr
    cases hr
  | _ => trivial

/-- `if r1 == 0 goto +1; r0 = 0; exit`. -/
def skipInit : List Insn :=
  [.jmpCond .jeq BpfReg.r1 (.imm 0) 1, .alu64 .mov BpfReg.r0 (.imm 0), .exit]

/-- `verifyProgram_justified` at `skipInit`: the jump leaves `R0` uninitialised. -/
theorem verifyProgram_justified_skipInit :
    (VerifyError.uninitializedRegRead 2 BpfReg.r0).Justified skipInit := by
  have hver : verifyProgram skipInit = .error (.err (.uninitializedRegRead 2 BpfReg.r0)) := rfl
  exact verifyProgram_justified hver

end NVMirror
