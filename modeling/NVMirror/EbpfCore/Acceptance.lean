import NVMirror.EbpfCore.Convergence

/-!
# What the verifier accepts

`Valid` says in terms of the paths of a program what the verifier looks for: it mentions no blocks,
states or passes.  An accepted program is valid, and a valid program is accepted unless the analysis
runs out of its budget (`verifyProgram_ok_iff`).
-/

namespace NVMirror

open Rust Leaders MustAnalysis RoundRobin Reachability

variable {insns : List Insn} {flags : List Bool}

/-- **Valid programs.** -/
structure Valid (insns : List Insn) : Prop where
  ne_nil : insns ≠ []
  targets : TargetsInBounds insns
  /-- Some path from the entry leads to each instruction. -/
  reach : ∀ pc < insns.length, Reach insns 0 pc
  /-- On every path each instruction passes its check. -/
  checked : ∀ pc insn I, insns[pc]? = some insn → PathInits insns pc I → insn.Checked I
  /-- A path that cannot go on has come to an `Exit` or a tail call. -/
  deadEnd : ∀ pc < insns.length, DeadEnd (Edge insns) pc →
    insns[pc]? = some .exit ∨ insns[pc]? = some .tailCall
  exit : ∃ pc : ℕ, insns[pc]? = some Insn.exit

/-- Number of leaders of a program. -/
noncomputable def leaderCount (insns : List Insn) : ℕ :=
  {p | p < insns.length ∧ IsLeader Insn.endsBlock insns p}.ncard

theorem Marks.leaderCount_eq (h : Marks Insn.endsBlock insns flags) :
    leaderCount insns = (positions flags).length := by
  have hset : {p | p < insns.length ∧ IsLeader Insn.endsBlock insns p} = {p | IsSet flags p} := by
    ext p
    constructor
    · rintro ⟨hp, hleader⟩
      exact (h.isSet_iff p hp).2 hleader
    · intro hset
      have hp : p < insns.length := h.length_eq ▸ IsSet.lt_length hset
      exact ⟨hp, (h.isSet_iff p hp).1 hset⟩
  rw [leaderCount, hset, length_positions_eq_ncard]

/-! ### Accepted programs are valid -/

/-- What is initialised on every path suffices for the check. -/
theorem Insn.Checked.mono {insn : Insn} {I J : Set BpfReg} (h : insn.Checked I) (hIJ : I ⊆ J) :
    insn.Checked J :=
  ⟨h.reads_subset.trans hIJ, h.not_writes, h.stack⟩

theorem valid_of_verifyProgram {n : ℕ} (h : verifyProgram insns = .ok n) : Valid insns := by
  have hverified := verified_of_verifyProgram h
  obtain ⟨A, hA⟩ := hverified.certificate
  refine ⟨hverified.ne_nil, hverified.targets, fun pc => reach_of_verifyProgram h, ?_,
    fun pc => hverified.exit_or_tailCall_of_deadEnd, hverified.exit⟩
  intro pc insn I hinsn hpath
  exact (hA pc insn hinsn).mono (A.subset_of_tracks (transferAt_mono insns) hpath)

/-! ### Valid programs are accepted -/

namespace Valid

/-- An instruction passes its check on sets of registers of which only paths miss one. -/
theorem checked_of_onPaths (h : Valid insns) {pc : ℕ} {insn : Insn} {I : Set BpfReg}
    (hinsn : insns[pc]? = some insn)
    (hI : OnPaths (Edge insns) (transferAt insns) 0 entryInits pc I) : insn.Checked I := by
  obtain ⟨J, hJ⟩ := hI.reached
  have hchecked := h.checked pc insn J hinsn hJ
  refine ⟨fun r hr => ?_, hchecked.not_writes, hchecked.stack⟩
  by_contra hmiss
  obtain ⟨K, hK, hrK⟩ := hI.missed r hmiss
  exact hrK ((h.checked pc insn K hinsn hK).reads_subset hr)

end Valid

/-- What a pass knows, it knows of a path. -/
theorem pathInits_of_known {k : ℕ} {v : ℕ × Option BpfReg} (h : Known insns k v) :
    ∃ I, PathInits insns v.1 I ∧ FactAt I v.2 := by
  induction h with
  | source hsource =>
    obtain ⟨hpc, hfact⟩ := hsource
    exact ⟨entryInits, hpc ▸ Tracks.start, hfact⟩
  | forward _ he _ ih | any _ he ih =>
    obtain ⟨I, hI, hfact⟩ := ih
    exact ⟨_, hI.step he.1,
      (factAt_transfer_iff (transferAt_separable insns _)).2 ⟨_, hfact, he.2⟩⟩

theorem onPaths_knownInits {k pc : ℕ} (h : Known insns k (pc, none)) :
    OnPaths (Edge insns) (transferAt insns) 0 entryInits pc (knownInits insns k pc) := by
  obtain ⟨J, hJ, -⟩ := pathInits_of_known h
  refine ⟨⟨J, hJ⟩, fun r hr => ?_⟩
  exact pathInits_of_known (not_not.1 hr)

namespace Valid

theorem passChecks (h : Valid insns) (k : ℕ) : PassChecks insns k := by
  intro pc hknown insn hinsn
  exact h.checked_of_onPaths hinsn (onPaths_knownInits hknown)

section Blocks

variable {bbs : List BasicBlock} {b : BasicBlock}

/-- A block without successors ends in a dead end. -/
theorem terminated (h : Valid insns) (hcfg : Cfg insns flags bbs)
    (hmarks : Marks Insn.endsBlock insns flags) (hb : b ∈ bbs) : Terminated insns b := by
  intro hsucc
  obtain ⟨hlt, hle⟩ := hcfg.shape hmarks b hb
  obtain ⟨i, hi⟩ := List.getElem?_of_mem hb
  refine h.deadEnd _ (by omega) fun q hedge => ?_
  have hmem := ((hcfg.isBlock i b hi).mem_successors _).2 ⟨q, hedge, rfl⟩
  rw [hsucc] at hmem
  cases hmem

/-- An `Exit` ends its block. -/
theorem exists_exit_block (h : Valid insns) (hcfg : Cfg insns flags bbs)
    (hmarks : Marks Insn.endsBlock insns flags) : ∃ b ∈ bbs, insns[b.stop - 1]? = some .exit := by
  obtain ⟨pc, hexit⟩ := h.exit
  have hpc := (List.getElem?_eq_some_iff.1 hexit).1
  obtain ⟨i, b, hb, hle, hlt⟩ := hcfg.exists_block hmarks hpc
  have hblock := hcfg.isBlock i b hb
  refine ⟨b, List.mem_of_getElem? hb, ?_⟩
  by_cases hnext : pc + 1 < b.stop
  · -- the only edge from inside a block leads to the next instruction
    have hedge := (edge_iff_of_mem_block hmarks hblock.start_eq hle
      (hblock.stop_eq ▸ hnext)).2 rfl
    obtain ⟨-, insn, hinsn, hkind⟩ := hedge
    rw [hexit] at hinsn
    cases hinsn
    rcases hkind with ⟨hfall, -⟩ | ⟨off, hoff, -⟩
    · cases hfall
    · cases hoff
  · rw [show b.stop - 1 = pc by omega]
    exact hexit

end Blocks

/-- The verifier accepts a valid program or runs out of its budget. -/
theorem verifyProgram_meets (h : Valid insns) (hsize : ¬ Oversized insns) :
    Meets (verifyProgram insns)
      (fun n => ∃ flags, Marks Insn.endsBlock insns flags ∧ n = (positions flags).length)
      (fun f => f = .err (.backEdgeBudgetExceeded 0)) := by
  refine (verifyProgram_phases (F := fun f => f = .err (.backEdgeBudgetExceeded 0))
    (flowClosed_onPaths insns) ?_ ?_ ?_ ?_ rfl ?_ ?_ ?_).imp ?_
  · exact fun hnil => absurd hnil h.ne_nil
  · exact fun hover => absurd hover hsize
  · intro pc insn off hinsn hoff t ht hout
    obtain ⟨q, hq, htarget⟩ := h.targets pc insn off hinsn hoff
    unfold IsTarget at htarget
    omega
  · exact fun pc insn I f hinsn hI hf => absurd (h.checked_of_onPaths hinsn hI) hf.not_checked
  · intro flags bbs hconv b hb hr
    obtain ⟨i, hi⟩ := List.getElem?_of_mem hb
    obtain ⟨hlt, hle⟩ := hconv.shape hconv.marks b hb
    rw [hconv.reachable_of_reach (h.reach b.start (by omega)) hi le_rfl hlt] at hr
    cases hr
  · exact fun flags bbs hconv b hb hno => absurd (h.terminated hconv.toCfg hconv.marks hb) hno
  · intro flags bbs hconv hno
    obtain ⟨b, hb, hexit⟩ := h.exists_exit_block hconv.toCfg hconv.marks
    exact absurd hexit (hno b hb)
  · rintro n ⟨flags, bbs, hconv, hn, -⟩
    exact ⟨flags, hconv.marks, hn⟩

/-- A valid program exceeds the budget iff the last pass finds something new. -/
theorem outOfBudget_iff (h : Valid insns) : OutOfBudget insns ↔ PassChanges insns 31 := by
  rw [NVMirror.outOfBudget_iff]
  exact ⟨fun hout => hout.2.2.1, fun hnew => ⟨h.ne_nil, h.targets, hnew, h.passChecks 31⟩⟩

end Valid

/-- The verifier accepts the valid programs on which the last pass of its budget finds nothing new,
and returns the number of leaders. -/
theorem verifyProgram_eq_ok_iff (hsize : ¬ Oversized insns) {n : ℕ} : verifyProgram insns = .ok n ↔
    Valid insns ∧ ¬ PassChanges insns 31 ∧ n = leaderCount insns := by
  constructor
  · intro hok
    have hvalid := valid_of_verifyProgram hok
    obtain ⟨-, flags, hmarks, hn⟩ := (NVMirror.verifyProgram_meets insns).of_ok hok
    have hbudget := (verifyProgram_meets_passes insns).of_ok hok
    exact ⟨hvalid, mt hvalid.outOfBudget_iff.2 hbudget, hn.trans hmarks.leaderCount_eq.symm⟩
  · rintro ⟨hvalid, hlast, rfl⟩
    have hmeets := hvalid.verifyProgram_meets hsize
    have hpasses := verifyProgram_meets_passes insns
    cases hver : verifyProgram insns with
    | ok n =>
      rw [hver] at hmeets
      obtain ⟨flags, hmarks, rfl⟩ := hmeets
      rw [hmarks.leaderCount_eq]
    | error f =>
      rw [hver] at hmeets hpasses
      obtain rfl : f = .err (.backEdgeBudgetExceeded 0) := hmeets
      rcases hpasses with ⟨-, hout⟩ | ⟨hne, -⟩
      · exact absurd (hvalid.outOfBudget_iff.1 hout) hlast
      · exact absurd rfl (hne 0)

/-- **Acceptance.**  The verifier accepts exactly the valid programs on which the last pass of its
budget finds nothing new, in particular every valid program with at most 15 backward jumps, and
returns the number of leaders. -/
theorem verifyProgram_ok_iff (hsize : ¬ Oversized insns) (n : ℕ) :
    (verifyProgram insns = .ok n ↔
      Valid insns ∧ ¬ PassChanges insns 31 ∧ n = leaderCount insns) ∧
    (backwardJumps insns ≤ 15 →
      (verifyProgram insns = .ok n ↔ Valid insns ∧ n = leaderCount insns)) := by
  have hiff := verifyProgram_eq_ok_iff hsize (n := n)
  refine ⟨hiff, fun hback => hiff.trans ⟨fun h => ⟨h.1, h.2.2⟩, fun h => ⟨h.1, ?_, h.2⟩⟩⟩
  intro hnew
  have hle := le_of_passChanges hnew
  omega

/-- `verifyProgram_ok_iff` at `skipInit`, where one path to the `Exit` leaves `R0` uninitialised. -/
theorem verifyProgram_ok_iff_skipInit : ¬ Valid skipInit := by
  intro hvalid
  have hsize : ¬ Oversized skipInit := by
    unfold Oversized
    decide
  have hok := ((verifyProgram_ok_iff hsize (leaderCount skipInit)).2 (by decide)).2 ⟨hvalid, rfl⟩
  have hfail : verifyProgram skipInit = fail (.uninitializedRegRead 2 BpfReg.r0) := by decide
  rw [hfail] at hok
  cases hok

end NVMirror
