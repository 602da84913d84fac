import NVMirror.EbpfCore.Passes

/-!
# Convergence of the dataflow analysis

The budget of the analysis counts passes.  Pass `k` finds the facts whose paths take `k` backward
edges, so the analysis converges early when there are few backward jumps, and runs out of its
budget on a program without loops whose blocks are laid out against the order of execution.

* `dataflowAnalysis_converges`: with `R ≤ 15` backward jumps some pass among the first `2 * R + 2`
  finds nothing new.
* `budget_iff`: exactly when the verifier does not run out of its budget.
* `descent_exceeds_budget`: a program without loops that is rejected for "possible infinite loop".
-/

namespace NVMirror

open Rust Leaders RoundRobin Relation

variable {insns : List Insn} {flags : List Bool}

/-! ### The blocks before the first pass -/

/-- Before the first pass the blocks record the facts at entry. -/
theorem records_of_cfg {bbs : List BasicBlock} (hmarks : Marks Insn.endsBlock insns flags)
    (hne : insns ≠ []) (hcfg : Cfg insns flags bbs)
    (hinit : ∀ (i : ℕ) (b : BasicBlock), bbs[i]? = some b →
      b.reachable = decide (i = 0) ∧ (i = 0 → b.regStateIn = RegFile.newEntry)) :
    Records insns flags (FoundAt insns 0 0) bbs := by
  refine ⟨hcfg, fun i b hb l => ?_⟩
  obtain ⟨hr, hs⟩ := hinit i b hb
  obtain ⟨hset, hrank⟩ := hcfg.isSet_start hb
  have hzero : i = 0 ↔ b.start = 0 := by
    rw [← hrank]
    constructor
    · intro h0
      have hfirst := getElem?_positions_rank (hmarks.isSet_zero hne)
      have hstart := getElem?_positions_rank hset
      rw [h0, ← @rank_zero flags, hfirst] at hstart
      exact (Option.some.inj hstart).symm
    · intro h0
      rw [h0, rank_zero]
  have hsource : FoundAt insns 0 0 (b.start, l) ↔ FlowSource (b.start, l) := found_zero
  rw [hsource, BasicBlock.Has, FlowSource, hr, decide_eq_true_eq, hzero]
  refine and_congr_right fun h0 => ?_
  rw [hs (hzero.2 h0), RegFile.inits_newEntry]

/-- Checking an instruction never exceeds the budget. -/
theorem Insn.Faulty.ne_budget {insn : Insn} {pc p : ℕ} {I : Set BpfReg} {f : Fault VerifyError}
    (h : insn.Faulty pc I f) : f ≠ .err (.backEdgeBudgetExceeded p) := by
  rintro rfl
  exact h

theorem Insn.Faulty.not_checked {insn : Insn} {pc : ℕ} {I : Set BpfReg} {f : Fault VerifyError}
    (h : insn.Faulty pc I f) : ¬ insn.Checked I := by
  intro hc
  cases f with
  | panic => exact h
  | err e =>
    cases e with
    | uninitializedRegRead p r => exact h.2.2 (hc.reads_subset h.2.1)
    | writeToR10 p => exact hc.not_writes h.2
    | stackOutOfBounds p off =>
      obtain ⟨-, width, hmem, hout⟩ := h
      exact hout (hc.stack off width hmem)
    | _ => exact h

/-- Each pass finds something new, and no instruction it simulates fails its check. -/
structure OutOfBudget (insns : List Insn) : Prop where
  ne_nil : insns ≠ []
  targets : TargetsInBounds insns
  passes : ∀ k < maxBackEdgeTraversals, PassChanges insns k ∧ PassChecks insns k

/-- **The verifier and its budget.**  It runs out of it iff each pass finds something new and
checks; otherwise it returns or stops with another fault. -/
theorem verifyProgram_meets_passes (insns : List Insn) :
    Meets (verifyProgram insns) (fun _ => ¬ OutOfBudget insns)
      (fun f => f = .err (.backEdgeBudgetExceeded 0) ∧ OutOfBudget insns ∨
        (∀ p, f ≠ .err (.backEdgeBudgetExceeded p)) ∧ (Oversized insns ∨ ¬ OutOfBudget insns)) := by
  unfold verifyProgram
  split_ifs with hne
  · exact Meets.fail (Or.inr ⟨by simp, Or.inr fun h => h.ne_nil hne⟩)
  refine (findBbStarts_meets hne (fun h => Or.inr ⟨by simp, Or.inl h⟩) ?_).bind
    fun starts hstarts => ?_
  · intro pc insn off hinsn hoff t ht hout
    refine Or.inr ⟨by simp, Or.inr fun h => hout ?_⟩
    obtain ⟨q, hq, htarget⟩ := h.targets pc insn off hinsn hoff
    unfold IsTarget at htarget
    omega
  obtain ⟨htargets, flags, hmarks, rfl⟩ := hstarts
  refine (buildCfg_meets hmarks htargets fun h => Or.inr ⟨by simp, Or.inl h⟩).bind
    fun bbs hbbs => ?_
  have hloop := dataflowLoop_meets_found (m := maxBackEdgeTraversals) hmarks hne
    (records_of_cfg hmarks hne hbbs.1 hbbs.2)
  simp only [zero_add] at hloop
  have hloop' : Meets (dataflowAnalysis insns bbs) (fun bbs' => Cfg insns flags bbs' ∧
      ¬ OutOfBudget insns) _ := hloop.imp fun _ ⟨hcfg, k, hk, hno⟩ =>
    ⟨hcfg, fun h => hno (h.passes k hk).1⟩
  refine (hloop'.mono (fun _ h => h) fun f hf => ?_).bind fun bbs' hstop => ?_
  · rcases hf with ⟨rfl, hall⟩ | ⟨k, hk, pc, insn, hinsn, hknown, hfault⟩
    · exact Or.inl ⟨rfl, hne, htargets, hall⟩
    · refine Or.inr ⟨fun p => hfault.ne_budget, Or.inr fun h => ?_⟩
      exact hfault.not_checked ((h.passes k hk).2 pc hknown insn hinsn)
  · obtain ⟨hcfg, hno⟩ := hstop
    refine (checkExitReachability_meets (hcfg.shape hmarks) ?_ ?_ ?_).bind fun _ _ => Meets.ok hno
    · exact fun _ _ _ => Or.inr ⟨by simp, Or.inr hno⟩
    · exact fun _ _ _ => Or.inr ⟨by simp, Or.inr hno⟩
    · exact fun _ => Or.inr ⟨by simp, Or.inr hno⟩

/-! ### Few backward jumps -/

namespace Insn

/-- The offset of the jump is negative. -/
def isBackwardJump (insn : Insn) : Bool :=
  match insn.jumpOff with
  | some off => decide (off.toInt < 0)
  | none => false

end Insn

/-- Number of jumps with a negative offset. -/
def backwardJumps (insns : List Insn) : ℕ := insns.countP Insn.isBackwardJump

/-- Backward edges are those of backward jumps. -/
theorem isSet_of_backward_edge {p q : ℕ} (he : Edge insns p q) (hle : q ≤ p) :
    IsSet (insns.map Insn.isBackwardJump) p := by
  obtain ⟨-, insn, hinsn, ⟨-, hnext⟩ | ⟨off, hoff, htarget⟩⟩ := he
  · omega
  · unfold IsTarget at htarget
    have hneg : off.toInt < 0 := by omega
    rw [IsSet, List.getElem?_map, hinsn, Option.map_some, Insn.isBackwardJump, hoff]
    simpa using hneg

/-- On a path to a fact, every fact is that its instruction is reached, or is about the same
register. -/
theorem eq_none_or_eq_of_path {u v : ℕ × Option BpfReg}
    (h : ReflTransGen (FlowEdge insns) u v) : u.2 = none ∨ u.2 = v.2 := by
  induction h with
  | refl => exact Or.inr rfl
  | @tail w v _ e ih =>
    rcases ih with hnone | hw
    · exact Or.inl hnone
    · obtain ⟨-, hcarries⟩ := e
      rw [hw]
      cases hw2 : w.2 with
      | none => exact Or.inl rfl
      | some r =>
        rw [hw2] at hcarries
        cases hv2 : v.2 with
        | none => rw [hv2] at hcarries; exact hcarries.elim
        | some q => rw [hv2] at hcarries; exact Or.inr (congrArg some hcarries.1.symm)

/-- A path first makes an instruction reached and then carries a register on: it needs each
backward jump at most twice. -/
theorem needs_le {m : ℕ} {v : ℕ × Option BpfReg}
    (h : Needs FlowSource (FlowEdge insns) Prod.fst m v) : m ≤ 2 * backwardJumps insns := by
  obtain ⟨S, rfl, hS⟩ := h.exists_backSources
  let jumps := (positions (insns.map Insn.isBackwardJump)).toFinset
  have hsub : S ⊆ jumps ×ˢ {none, v.2} := by
    intro u hu
    obtain ⟨w, he, hle, hpath⟩ := hS u hu
    rw [Finset.mem_product, List.mem_toFinset, Finset.mem_insert, Finset.mem_singleton]
    refine ⟨?_, eq_none_or_eq_of_path (hpath.head he)⟩
    have hset := isSet_of_backward_edge he.1 hle
    exact List.mem_of_getElem? (getElem?_positions_rank hset)
  have hjumps : jumps.card ≤ backwardJumps insns := by
    refine (List.toFinset_card_le _).trans ?_
    rw [length_positions, backwardJumps, List.count, List.countP_map]
    refine le_of_eq (List.countP_congr fun insn _ => ?_)
    simp
  calc S.card ≤ (jumps ×ˢ {none, v.2}).card := Finset.card_le_card hsub
    _ = jumps.card * ({none, v.2} : Finset (Option BpfReg)).card := Finset.card_product _ _
    _ ≤ backwardJumps insns * 2 := Nat.mul_le_mul hjumps Finset.card_le_two
    _ = 2 * backwardJumps insns := Nat.mul_comm _ _

theorem le_of_passChanges {k : ℕ} (h : PassChanges insns k) : k ≤ 2 * backwardJumps insns := by
  obtain ⟨u, v, -, hneeds⟩ := h.exists_needs
  exact needs_le hneeds

/-- A loop that stops within its budget does the same with a larger one. -/
theorem dataflowLoop_add {m : ℕ} {bbs : List BasicBlock} (j : ℕ)
    (h : dataflowLoop insns m bbs ≠ fail (.backEdgeBudgetExceeded 0)) :
    dataflowLoop insns (m + j) bbs = dataflowLoop insns m bbs := by
  induction m generalizing bbs with
  | zero => exact absurd rfl h
  | succ m ih =>
    rw [Nat.succ_add]
    unfold dataflowLoop at h ⊢
    cases hpass : flowPass insns bbs with
    | error f => rfl
    | ok acc =>
      obtain ⟨bbs', changed⟩ := acc
      rw [hpass] at h
      cases changed with
      | false => rfl
      | true => exact ih h

/-- With one pass more than there may be changes, the loop stops within its budget. -/
theorem dataflowLoop_ne_budget {starts : List ℕ} {bbs : List BasicBlock}
    (hstarts : findBbStarts insns = .ok starts) (hbbs : buildCfg insns starts = .ok bbs) (p : ℕ) :
    dataflowLoop insns (2 * backwardJumps insns + 2) bbs ≠ fail (.backEdgeBudgetExceeded p) := by
  have hne : insns ≠ [] := by
    rintro rfl
    cases hstarts
  have hmeets := findBbStarts_meets (F := fun _ => True) hne (fun _ => trivial)
    fun _ _ _ _ _ _ _ _ => trivial
  obtain ⟨htargets, flags, hmarks, rfl⟩ := hmeets.of_ok hstarts
  have hbuild := buildCfg_meets (F := fun _ => True) hmarks htargets fun _ => trivial
  obtain ⟨hcfg, hinit⟩ := hbuild.of_ok hbbs
  have hloop := dataflowLoop_meets_found (m := 2 * backwardJumps insns + 2) hmarks hne
    (records_of_cfg hmarks hne hcfg hinit)
  simp only [zero_add] at hloop
  intro hfail
  rw [hfail] at hloop
  rcases hloop with ⟨-, hall⟩ | ⟨k, -, pc, insn, -, -, hfault⟩
  · have := le_of_passChanges (hall (2 * backwardJumps insns + 1) (by omega)).1
    omega
  · exact hfault.ne_budget rfl

theorem verifyProgram_ne_budget (hback : backwardJumps insns ≤ 15) (pc : ℕ) :
    verifyProgram insns ≠ fail (.backEdgeBudgetExceeded pc) := by
  intro hfail
  have hmeets := verifyProgram_meets_passes insns
  rw [hfail] at hmeets
  rcases hmeets with ⟨-, hout⟩ | ⟨hno, -⟩
  · have := le_of_passChanges (hout.passes 31 (by decide)).1
    omega
  · exact hno pc rfl

/-- **Convergence.**  With at most 15 backward jumps the verifier does not run out of its budget:
with `R` backward jumps the analysis stops within `2 * R + 2` passes. -/
theorem dataflowAnalysis_converges (hback : backwardJumps insns ≤ 15) :
    (∀ pc, verifyProgram insns ≠ fail (.backEdgeBudgetExceeded pc)) ∧
    ∀ starts bbs, findBbStarts insns = .ok starts → buildCfg insns starts = .ok bbs →
      dataflowAnalysis insns bbs = dataflowLoop insns (2 * backwardJumps insns + 2) bbs ∧
      ∀ pc, dataflowLoop insns (2 * backwardJumps insns + 2) bbs ≠
        fail (.backEdgeBudgetExceeded pc) := by
  refine ⟨verifyProgram_ne_budget hback, fun starts bbs hstarts hbbs => ?_⟩
  have hstop := dataflowLoop_ne_budget hstarts hbbs
  refine ⟨?_, hstop⟩
  have hsplit : maxBackEdgeTraversals =
      2 * backwardJumps insns + 2 + (30 - 2 * backwardJumps insns) := by
    unfold maxBackEdgeTraversals
    omega
  rw [dataflowAnalysis, hsplit, dataflowLoop_add _ (hstop 0)]

/-- `dataflowAnalysis_converges` at `spinBesideExit`, which has one backward jump. -/
theorem dataflowAnalysis_converges_spinBesideExit : backwardJumps spinBesideExitInsns = 1 ∧
    ∀ pc, verifyProgram spinBesideExitInsns ≠ fail (.backEdgeBudgetExceeded pc) :=
  ⟨by decide, (dataflowAnalysis_converges (by decide)).1⟩

/-! ### Blocks laid out backward -/

/-- What one pass checks, the passes before it have checked. -/
theorem PassChecks.of_le {j k : ℕ} (h : PassChecks insns k) (hjk : j ≤ k) :
    PassChecks insns j := by
  intro pc hknown insn hinsn
  have hsub : knownInits insns k pc ⊆ knownInits insns j pc :=
    fun r hr hknown' => hr (hknown'.mono hjk)
  obtain ⟨hreads, hwrites, hstack⟩ := h pc (hknown.mono hjk) insn hinsn
  exact ⟨hreads.trans hsub, hwrites, hstack⟩

theorem PassChanges.of_le {j k : ℕ} (h : PassChanges insns k) (hjk : j ≤ k) :
    PassChanges insns j :=
  Changes.of_le (fun _ _ e => e.isLeader_or_lt) hjk h

/-- The last pass decides. -/
theorem outOfBudget_iff : OutOfBudget insns ↔
    insns ≠ [] ∧ TargetsInBounds insns ∧ PassChanges insns 31 ∧ PassChecks insns 31 := by
  constructor
  · rintro ⟨hne, htargets, hpasses⟩
    exact ⟨hne, htargets, hpasses 31 (by decide)⟩
  · rintro ⟨hne, htargets, hchanges, hchecks⟩
    refine ⟨hne, htargets, fun k hk => ?_⟩
    have hle : k ≤ 31 := by
      unfold maxBackEdgeTraversals at hk
      omega
    exact ⟨hchanges.of_le hle, hchecks.of_le hle⟩

/-- **The budget.**  The verifier keeps within its budget iff the program is empty, a jump leaves
it, an instruction fails its check on what paths with at most 31 backward edges lead to, or these
paths lead to no new fact about a leader. -/
theorem budget_iff (hsize : ¬ Oversized insns) :
    (∀ pc, verifyProgram insns ≠ fail (.backEdgeBudgetExceeded pc)) ↔
      insns = [] ∨ ¬ TargetsInBounds insns ∨ ¬ PassChecks insns 31 ∨ ¬ PassChanges insns 31 := by
  have hmeets := verifyProgram_meets_passes insns
  have hout : OutOfBudget insns ↔
      ¬ ∀ pc, verifyProgram insns ≠ fail (.backEdgeBudgetExceeded pc) := by
    cases hver : verifyProgram insns with
    | ok n =>
      rw [hver] at hmeets
      exact ⟨fun h => absurd h hmeets, fun h => absurd (fun pc => by simp [fail]) h⟩
    | error f =>
      rw [hver] at hmeets
      rcases hmeets with ⟨rfl, h⟩ | ⟨hne, hno⟩
      · exact ⟨fun _ hall => hall 0 rfl, fun _ => h⟩
      · refine ⟨fun h => absurd h (hno.resolve_left hsize), fun h => absurd (fun pc hpc => ?_) h⟩
        exact hne pc (Except.error.inj hpc)
  rw [← not_iff_not, ← hout, outOfBudget_iff]
  tauto

/-- No path leads from an instruction back to it. -/
def LoopFree (insns : List Insn) : Prop := ∀ pc, ¬ TransGen (Edge insns) pc pc

/-- Edges that lead downward in some order close no loop. -/
theorem loopFree_of_rank (r : ℕ → ℕ) (hr : ∀ p q, Edge insns p q → r q < r p) :
    LoopFree insns := by
  have hpath : ∀ p q, TransGen (Edge insns) p q → r q < r p := by
    intro p q h
    induction h with
    | single e => exact hr _ _ e
    | tail _ e ih => exact (hr _ _ e).trans ih
  exact fun pc h => lt_irrefl _ (hpath pc pc h)

/-- `r0 = 0; goto +32; exit`, then 32 jumps, each of which leads to the instruction before it. -/
def descent : List Insn :=
  [.alu64 .mov BpfReg.r0 (.imm 0), .ja 32, .exit] ++ List.replicate 32 (.ja (-2))

theorem verify_descent : verifyProgram descent = fail (.backEdgeBudgetExceeded 0) := by
  decide +kernel

/-- `descent` runs through its instructions in the order 0, 1, 34, 33, …, 2. -/
theorem loopFree_descent : LoopFree descent := by
  refine loopFree_of_rank (fun p => if p < 2 then 36 - p else p) ?_
  rintro p q ⟨hq, insn, hinsn, hedge⟩
  rcases Nat.lt_or_ge p 3 with hp | hp
  · interval_cases p <;> cases hinsn
    · rcases hedge with ⟨-, rfl⟩ | ⟨off, hoff, -⟩
      · decide
      · cases hoff
    · rcases hedge with ⟨hfall, -⟩ | ⟨off, hoff, htarget⟩
      · cases hfall
      · cases hoff
        obtain rfl : q = 34 := htarget.unique (show IsTarget 1 32 34 by unfold IsTarget; decide)
        decide
    · rcases hedge with ⟨hfall, -⟩ | ⟨off, hoff, -⟩
      · cases hfall
      · cases hoff
  · rw [descent, List.getElem?_append_right hp] at hinsn
    obtain rfl := (List.mem_replicate.1 (List.mem_of_getElem? hinsn)).2
    rcases hedge with ⟨hfall, -⟩ | ⟨off, hoff, htarget⟩
    · cases hfall
    · cases hoff
      have hoff : (-2 : I16).toInt = -2 := by decide
      unfold IsTarget at htarget
      rw [hoff] at htarget
      split_ifs <;> omega

/-- **A program without loops can exceed the budget.** -/
theorem descent_exceeds_budget :
    LoopFree descent ∧ verifyProgram descent = fail (.backEdgeBudgetExceeded 0) :=
  ⟨loopFree_descent, verify_descent⟩

/-- `budget_iff` at `descent`: every pass finds the next jump. -/
theorem budget_iff_descent : PassChanges descent 31 ∧ PassChecks descent 31 := by
  have hsize : ¬ Oversized descent := by
    unfold Oversized descent
    decide
  have hno : ¬ ∀ pc, verifyProgram descent ≠ fail (.backEdgeBudgetExceeded pc) :=
    fun hall => hall 0 verify_descent
  rw [budget_iff hsize] at hno
  push Not at hno
  exact hno.2.2.symm

end NVMirror
