import NVMirror.EbpfCore.Blocks

/-!
# Soundness of the dataflow analysis

Phase 2 of the verifier runs passes over the blocks until one changes nothing.  Two things are
shown of it.

* Any property of program points that is closed under the edges and under merging
  (`FlowClosed`) holds of every in-state the analysis ever computes (`Flowing`); the errors it
  reports are faults of an instruction under such a state.
* A pass without change has checked every reachable block from its final in-state, and what
  leaves a block includes the in-state of its successors (`Settled`).

With phase 3, which rejects unreachable blocks, the final in-states give an annotation of the
whole program (`Verified`).
-/

namespace NVMirror

open Rust Leaders MustAnalysis

variable {insns : List Insn} {flags : List Bool} {F : Fault VerifyError → Prop}

/-- A property of program points closed under the edges of the program and under merging. -/
structure FlowClosed (insns : List Insn) (P : ℕ → Set BpfReg → Prop) : Prop where
  entry : P 0 entryInits
  edge : ∀ pc q I, P pc I → Edge insns pc q → P q (transferAt insns pc I)
  inter : ∀ pc I J, P pc I → P pc J → P pc (I ∩ J)

/-! ### Inside a block -/

/-- The initialised registers `k` instructions after `start`. -/
def factsFrom (insns : List Insn) (start : ℕ) (I : Set BpfReg) : ℕ → Set BpfReg
  | 0 => I
  | k + 1 => transferAt insns (start + k) (factsFrom insns start I k)

/-- The instruction at `pc` passes its check when `I` is initialised. -/
def CheckedAt (insns : List Insn) (pc : ℕ) (I : Set BpfReg) : Prop :=
  ∀ insn, insns[pc]? = some insn → insn.Checked I

theorem Insn.fallsThrough_of_not_endsBlock {insn : Insn} (h : insn.endsBlock = false) :
    insn.fallsThrough = true ∧ insn.jumpOff = none := by
  cases insn <;> first | exact ⟨rfl, rfl⟩ | cases h

/-- The only edge from inside a block leads to the next instruction. -/
theorem edge_iff_of_mem_block {i s pc q : ℕ} (hmarks : Marks Insn.endsBlock insns flags)
    (hs : (positions flags)[i]? = some s) (hpc : s ≤ pc) (hlt : pc + 1 < blockStop flags i) :
    Edge insns pc q ↔ q = pc + 1 := by
  have hn : pc + 1 < insns.length := by
    have := blockStop_le flags i
    rw [hmarks.length_eq] at this
    omega
  have hpc' : pc < insns.length := by omega
  have hinsn := List.getElem?_eq_getElem hpc'
  have hends : insns[pc].endsBlock = false := by
    by_contra h
    have hset := hmarks.isSet_succ hinsn (by simpa using h) hn
    exact not_isSet_of_mem_block hs (by omega) hlt hset
  obtain ⟨hfall, hjump⟩ := Insn.fallsThrough_of_not_endsBlock hends
  rw [Edge, hinsn]
  constructor
  · rintro ⟨-, insn, hi, h⟩
    cases hi
    rw [hfall, hjump] at h
    simpa using h
  · rintro rfl
    exact ⟨hn, _, rfl, Or.inl ⟨hfall, rfl⟩⟩

/-- The edges that leave a block lead to leaders. -/
theorem isSet_of_edge_last {i s stop q : ℕ} (hmarks : Marks Insn.endsBlock insns flags)
    (hstop : stop = blockStop flags i) (hlt : s < stop) (he : Edge insns (stop - 1) q) :
    IsSet flags q := by
  obtain ⟨hq, insn, hinsn, ⟨-, rfl⟩ | ⟨off, hoff, ht⟩⟩ := he
  · rw [Nat.sub_add_cancel (by omega)] at hq ⊢
    rw [hstop] at hq ⊢
    exact (isSet_blockStop (by rw [hmarks.length_eq]; exact hq)).1
  · exact hmarks.isSet_target hinsn hoff hq ht

/-- **One block.**  `simulate` checks every instruction of a block and computes what is
initialised at its end; its fault is that of an instruction of the block. -/
theorem simulate_eq_factsFrom {start stop : ℕ} {s : RegFile} (hstop : stop ≤ insns.length)
    (hfaulty : ∀ k < stop - start, ∀ insn f, insns[start + k]? = some insn →
      insn.Faulty (start + k) (factsFrom insns start s.inits k) f → F f) :
    Meets (simulate insns start stop s)
      (fun s' => s'.inits = factsFrom insns start s.inits (stop - start) ∧
        ∀ k < stop - start, CheckedAt insns (start + k) (factsFrom insns start s.inits k)) F := by
  let I : ℕ → RegFile → Prop := fun k s' => s'.inits = factsFrom insns start s.inits k ∧
    ∀ j < k, CheckedAt insns (start + j) (factsFrom insns start s.inits j)
  have hI0 : I 0 s := ⟨rfl, fun j hj => by omega⟩
  refine (Meets.foldlM I hI0 ?_).imp fun s' hs' => ?_
  · rintro k pc s' hpc ⟨hinits, hchecked⟩
    have hk : k < stop - start := by simpa using (List.getElem?_eq_some_iff.1 hpc).1
    rw [List.getElem?_range' hk, one_mul] at hpc
    cases hpc
    have hinsn := List.getElem?_eq_getElem (show start + k < insns.length by omega)
    refine (checkAndUpdateRegs_meets s' hinsn).mono (fun s'' h => ?_)
      fun f hf => hfaulty k hk _ f hinsn (hinits ▸ hf)
    obtain ⟨hcheck, htransfer⟩ := h
    refine ⟨?_, fun j hj => ?_⟩
    · rw [htransfer, factsFrom, ← hinits, transferAt, hinsn]
    · rcases Nat.lt_succ_iff_lt_or_eq.1 hj with hlt | rfl
      · exact hchecked j hlt
      · intro insn hi
        rw [hinsn] at hi
        cases hi
        exact hinits ▸ hcheck
  · rw [List.length_range'] at hs'
    exact hs'

/-- A block, with a property of program points that its instructions keep. -/
theorem simulate_meets {P : ℕ → Set BpfReg → Prop} (hP : FlowClosed insns P) {start stop : ℕ}
    {s : RegFile} (hstop : stop ≤ insns.length)
    (hedge : ∀ k, start + k + 1 < stop → Edge insns (start + k) (start + k + 1))
    (hs : P start s.inits)
    (hfaulty : ∀ pc insn I f, insns[pc]? = some insn → P pc I → insn.Faulty pc I f → F f) :
    Meets (simulate insns start stop s)
      (fun s' => s'.inits = factsFrom insns start s.inits (stop - start) ∧
        ∀ k < stop - start, CheckedAt insns (start + k) (factsFrom insns start s.inits k) ∧
          P (start + k) (factsFrom insns start s.inits k)) F := by
  have hfacts : ∀ k < stop - start, P (start + k) (factsFrom insns start s.inits k) := by
    intro k hk
    induction k with
    | zero => exact hs
    | succ k ih => exact hP.edge _ _ _ (ih (by omega)) (hedge k (by omega))
  refine (simulate_eq_factsFrom hstop fun k hk insn f hinsn hf =>
    hfaulty _ insn _ f hinsn (hfacts k hk) hf).imp fun s' hs' => ?_
  exact ⟨hs'.1, fun k hk => ⟨hs'.2 k hk, hfacts k hk⟩⟩

/-! ### One pass -/

/-- The blocks during phase 2. -/
structure Flowing (insns : List Insn) (flags : List Bool) (P : ℕ → Set BpfReg → Prop)
    (bbs : List BasicBlock) : Prop extends Cfg insns flags bbs where
  entry : ∀ b, bbs[0]? = some b → b.reachable = true ∧ b.regStateIn.inits ⊆ entryInits
  closed : ∀ (i : ℕ) (b : BasicBlock), bbs[i]? = some b → b.reachable = true →
    P b.start b.regStateIn.inits

/-- The facts at the end of a block. -/
def BasicBlock.factsOut (insns : List Insn) (b : BasicBlock) : Set BpfReg :=
  factsFrom insns b.start b.regStateIn.inits (b.stop - b.start)

/-- The in-state of the block with index `j` is covered by `O`. -/
def Covered (bbs : List BasicBlock) (O : Set BpfReg) (j : ℕ) : Prop :=
  ∃ b, bbs[j]? = some b ∧ b.reachable = true ∧ b.regStateIn.inits ⊆ O

/-- Block `i`, if reachable, passes its checks and covers its successors. -/
def Settled (insns : List Insn) (bbs : List BasicBlock) (i : ℕ) : Prop :=
  ∀ b, bbs[i]? = some b → b.reachable = true →
    (∀ k < b.stop - b.start,
      CheckedAt insns (b.start + k) (factsFrom insns b.start b.regStateIn.inits k)) ∧
    ∀ j ∈ b.successors, Covered bbs (b.factsOut insns) j

section Pass

variable {P : ℕ → Set BpfReg → Prop} {bbs : List BasicBlock}

/-- Changing the state of a block, not its shape, keeps the invariant. -/
theorem Flowing.set (h : Flowing insns flags P bbs) {j : ℕ} {b b' : BasicBlock}
    (hb : bbs[j]? = some b) (hstart : b'.start = b.start) (hstop : b'.stop = b.stop)
    (hsucc : b'.successors = b.successors) (hreach : b'.reachable = true)
    (hP : P b.start b'.regStateIn.inits)
    (hentry : j = 0 → b'.regStateIn.inits ⊆ entryInits) :
    Flowing insns flags P (bbs.set j b') := by
  have hget : ∀ i c, (bbs.set j b')[i]? = some c → (i = j ∧ c = b') ∨ bbs[i]? = some c := by
    intro i c hc
    rw [List.getElem?_set] at hc
    split_ifs at hc with hi hlt
    · cases hc
      exact Or.inl ⟨hi.symm, rfl⟩
    · exact Or.inr hc
  refine ⟨⟨by rw [List.length_set, h.length_eq], fun i c hc => ?_⟩, fun c hc => ?_,
    fun i c hc hr => ?_⟩
  · rcases hget i c hc with ⟨rfl, rfl⟩ | hc
    · have := h.isBlock i b hb
      exact ⟨hstart ▸ this.start_eq, hstop ▸ this.stop_eq, hsucc ▸ hstop ▸ this.mem_successors⟩
    · exact h.isBlock i c hc
  · rcases hget 0 c hc with ⟨h0, rfl⟩ | hc
    · exact ⟨hreach, hentry h0.symm⟩
    · exact h.entry c hc
  · rcases hget i c hc with ⟨rfl, rfl⟩ | hc
    · exact hstart ▸ hP
    · exact h.closed i c hc hr

/-- Merging into one successor. -/
theorem propagate_meets (hP : FlowClosed insns P) (h : Flowing insns flags P bbs)
    {state : RegFile} {changed : Bool} {j q : ℕ} (hj : (positions flags)[j]? = some q)
    (hstate : P q state.inits) :
    Meets (propagate state (bbs, changed) j)
      (fun acc => Flowing insns flags P acc.1 ∧
        (acc.2 = false → acc.1 = bbs ∧ changed = false ∧ Covered bbs state.inits j)) F := by
  have hlt : j < bbs.length := by
    rw [h.length_eq]
    exact (List.getElem?_eq_some_iff.1 hj).1
  refine (meets_index hlt).bind fun b hb => ?_
  have hstart : b.start = q := by
    have := (h.isBlock j b hb).start_eq
    rw [hj] at this
    exact (Option.some.inj this).symm
  by_cases hr : b.reachable
  · rw [if_pos hr]
    by_cases hm : (b.regStateIn.merge state).equals b.regStateIn
    · rw [if_pos hm]
      refine Meets.ok ⟨h, fun hc => ⟨rfl, hc, b, hb, hr, ?_⟩⟩
      exact (RegFile.merge_equals_iff _ _).1 hm
    · rw [if_neg hm, setAt_of_lt hlt]
      refine Meets.ok ⟨h.set hb rfl rfl rfl hr ?_ fun h0 => ?_, fun hc => by cases hc⟩
      · rw [RegFile.inits_merge]
        exact hP.inter _ _ _ (h.closed j b hb hr) (hstart ▸ hstate)
      · subst h0
        rw [RegFile.inits_merge]
        exact Set.inter_subset_left.trans (h.entry b hb).2
  · rw [if_neg hr, setAt_of_lt hlt]
    refine Meets.ok ⟨h.set hb rfl rfl rfl rfl (hstart ▸ hstate) fun h0 => ?_, fun hc => by cases hc⟩
    subst h0
    exact absurd (h.entry b hb).1 hr

/-- Merging into all successors of a block. -/
theorem propagateAll_meets (hP : FlowClosed insns P) (h : Flowing insns flags P bbs)
    {state : RegFile} {changed : Bool} {succs : List ℕ}
    (hsuccs : ∀ j ∈ succs, ∃ q, (positions flags)[j]? = some q ∧ P q state.inits) :
    Meets (succs.foldlM (propagate state) (bbs, changed))
      (fun acc => Flowing insns flags P acc.1 ∧ (acc.2 = false → acc.1 = bbs ∧ changed = false ∧
        ∀ j ∈ succs, Covered bbs state.inits j)) F := by
  let I : ℕ → List BasicBlock × Bool → Prop := fun k acc => Flowing insns flags P acc.1 ∧
    (acc.2 = false → acc.1 = bbs ∧ changed = false ∧
      ∀ i < k, ∀ j, succs[i]? = some j → Covered bbs state.inits j)
  have hI0 : I 0 (bbs, changed) := ⟨h, fun hc => ⟨rfl, hc, fun i hi => by omega⟩⟩
  refine (Meets.foldlM I hI0 ?_).imp fun acc hacc => ?_
  · rintro k j ⟨bbs', ch⟩ hj ⟨hflow, hsame⟩
    obtain ⟨q, hq, hPq⟩ := hsuccs j (List.mem_of_getElem? hj)
    refine (propagate_meets hP hflow hq hPq).imp fun acc hacc => ?_
    refine ⟨hacc.1, fun hc => ?_⟩
    obtain ⟨heq, hch, hcov⟩ := hacc.2 hc
    obtain ⟨heq', hch', hcov'⟩ := hsame hch
    dsimp only at heq'
    subst heq'
    refine ⟨heq, hch', fun i hi j' hj' => ?_⟩
    rcases Nat.lt_succ_iff_lt_or_eq.1 hi with hlt | rfl
    · exact hcov' i hlt j' hj'
    · rw [hj] at hj'
      cases hj'
      exact hcov
  · refine ⟨hacc.1, fun hc => ?_⟩
    obtain ⟨heq, hch, hcov⟩ := hacc.2 hc
    refine ⟨heq, hch, fun j hj => ?_⟩
    obtain ⟨i, hi, hij⟩ := List.getElem_of_mem hj
    exact hcov i hi j (by rw [List.getElem?_eq_getElem hi, hij])

/-- The facts at the last instruction of a block, and at the end of it. -/
theorem BasicBlock.factsOut_eq {b : BasicBlock} (h : b.start < b.stop) :
    b.factsOut insns = transferAt insns (b.stop - 1)
      (factsFrom insns b.start b.regStateIn.inits (b.stop - 1 - b.start)) := by
  obtain ⟨k, hk⟩ : ∃ k, b.stop - b.start = k + 1 := ⟨b.stop - b.start - 1, by omega⟩
  unfold BasicBlock.factsOut
  rw [hk, factsFrom]
  congr 2 <;> omega

/-- One iteration of a pass. -/
theorem flowBlock_meets (hP : FlowClosed insns P) (hmarks : Marks Insn.endsBlock insns flags)
    (h : Flowing insns flags P bbs) {changed : Bool} {i : ℕ} (hi : i < bbs.length)
    (hfaulty : ∀ pc insn I f, insns[pc]? = some insn → P pc I → insn.Faulty pc I f → F f) :
    Meets (flowBlock insns (bbs, changed) i)
      (fun acc => Flowing insns flags P acc.1 ∧
        (acc.2 = false → acc.1 = bbs ∧ changed = false ∧ Settled insns bbs i)) F := by
  refine (meets_index hi).bind fun b hb => ?_
  obtain ⟨hstart, hstop, hsuccs⟩ := h.isBlock i b hb
  by_cases hr : b.reachable
  · rw [if_pos hr]
    have hlt : b.start < b.stop := hstop ▸ start_lt_blockStop hstart
    have hle : b.stop ≤ insns.length := by
      rw [hstop, ← hmarks.length_eq]
      exact blockStop_le flags i
    have hedge : ∀ k, b.start + k + 1 < b.stop → Edge insns (b.start + k) (b.start + k + 1) :=
      fun k hk => (edge_iff_of_mem_block hmarks hstart (by omega) (hstop ▸ hk)).2 rfl
    refine (simulate_meets hP hle hedge (h.closed i b hb hr) hfaulty).bind fun s hs => ?_
    obtain ⟨hout, hchecked⟩ := hs
    have hlast := (hchecked (b.stop - 1 - b.start) (by omega)).2
    rw [show b.start + (b.stop - 1 - b.start) = b.stop - 1 by omega] at hlast
    have hP' : ∀ j ∈ b.successors, ∃ q, (positions flags)[j]? = some q ∧ P q s.inits := by
      intro j hj
      obtain ⟨q, he, rfl⟩ := (hsuccs j).1 hj
      refine ⟨q, getElem?_positions_rank ?_, ?_⟩
      · exact isSet_of_edge_last hmarks hstop hlt he
      · rw [hout]
        change P q (b.factsOut insns)
        rw [b.factsOut_eq hlt]
        exact hP.edge _ _ _ hlast he
    refine (propagateAll_meets hP h hP').imp fun acc hacc => ⟨hacc.1, fun hc => ?_⟩
    obtain ⟨heq, hch, hcov⟩ := hacc.2 hc
    refine ⟨heq, hch, fun b' hb' _ => ?_⟩
    rw [hb] at hb'
    cases hb'
    refine ⟨fun k hk => (hchecked k hk).1, fun j hj => ?_⟩
    rw [BasicBlock.factsOut, ← hout]
    exact hcov j hj
  · rw [if_neg hr]
    refine Meets.ok ⟨h, fun hc => ⟨rfl, hc, fun b' hb' hr' => ?_⟩⟩
    rw [hb] at hb'
    cases hb'
    exact absurd hr' hr

/-- A pass.  Without a change, every block has been settled. -/
theorem flowPass_meets (hP : FlowClosed insns P) (hmarks : Marks Insn.endsBlock insns flags)
    (h : Flowing insns flags P bbs)
    (hfaulty : ∀ pc insn I f, insns[pc]? = some insn → P pc I → insn.Faulty pc I f → F f) :
    Meets (flowPass insns bbs)
      (fun acc => Flowing insns flags P acc.1 ∧
        (acc.2 = false → ∀ i < acc.1.length, Settled insns acc.1 i)) F := by
  let I : ℕ → List BasicBlock × Bool → Prop := fun k acc => Flowing insns flags P acc.1 ∧
    (acc.2 = false → acc.1 = bbs ∧ ∀ i < k, Settled insns bbs i)
  have hI0 : I 0 (bbs, false) := ⟨h, fun _ => ⟨rfl, fun i hi => by omega⟩⟩
  refine (Meets.foldlM I hI0 ?_).imp fun acc hacc => ?_
  · rintro k i ⟨bbs', ch⟩ hi ⟨hflow, hsame⟩
    have hk : k < bbs.length := by simpa using (List.getElem?_eq_some_iff.1 hi).1
    rw [List.getElem?_range hk] at hi
    cases hi
    have hk' : k < bbs'.length := by rwa [hflow.length_eq, ← h.length_eq]
    refine (flowBlock_meets hP hmarks hflow hk' hfaulty).imp fun acc hacc => ?_
    refine ⟨hacc.1, fun hc => ?_⟩
    obtain ⟨heq, hch, hset⟩ := hacc.2 hc
    obtain ⟨heq', hset'⟩ := hsame hch
    dsimp only at heq'
    subst heq'
    refine ⟨heq, fun i hi => ?_⟩
    rcases Nat.lt_succ_iff_lt_or_eq.1 hi with hlt | rfl
    · exact hset' i hlt
    · exact hset
  · refine ⟨hacc.1, fun hc => ?_⟩
    obtain ⟨heq, hset⟩ := hacc.2 hc
    rw [List.length_range] at hset
    rw [heq]
    exact hset

/-- **Phase 2.**  The analysis ends with every block settled. -/
theorem dataflowLoop_meets (hP : FlowClosed insns P) (hmarks : Marks Insn.endsBlock insns flags)
    (hfaulty : ∀ pc insn I f, insns[pc]? = some insn → P pc I → insn.Faulty pc I f → F f)
    (hbudget : F (.err (.backEdgeBudgetExceeded 0))) (k : ℕ) (h : Flowing insns flags P bbs) :
    Meets (dataflowLoop insns k bbs)
      (fun bbs' => Flowing insns flags P bbs' ∧ ∀ i < bbs'.length, Settled insns bbs' i) F := by
  induction k generalizing bbs with
  | zero => exact Meets.fail hbudget
  | succ k ih =>
    refine (flowPass_meets hP hmarks h hfaulty).bind fun acc hacc => ?_
    obtain ⟨bbs', changed⟩ := acc
    cases changed with
    | true => exact ih hacc.1
    | false => exact Meets.ok ⟨hacc.1, hacc.2 rfl⟩

end Pass

/-! ### Phase 3 -/

/-- A block without successors ends in `Exit` or a tail call. -/
def Terminated (insns : List Insn) (b : BasicBlock) : Prop :=
  b.successors = [] → insns[b.stop - 1]? = some .exit ∨ insns[b.stop - 1]? = some .tailCall

theorem checkBlock_meets {hasExit : Bool} {b : BasicBlock} (hlt : b.start < b.stop)
    (hstop : b.stop ≤ insns.length)
    (hreach : b.reachable = false → F (.err (.unreachableCode b.start)))
    (hfall : ¬ Terminated insns b → F (.err (.fallthroughAfterExit (b.stop - 1)))) :
    Meets (checkBlock insns hasExit b)
      (fun e => b.reachable = true ∧ Terminated insns b ∧
        (e = true ↔ hasExit = true ∨ insns[b.stop - 1]? = some .exit)) F := by
  unfold checkBlock
  by_cases hr : b.reachable
  swap
  · rw [if_pos hr]
    exact Meets.fail (hreach (by simpa using hr))
  rw [if_neg (not_not.2 hr)]
  refine (meets_usizeSub (by omega)).bind fun lastPc hlast => ?_
  subst hlast
  refine (meets_index (by omega)).bind fun insn hinsn => ?_
  by_cases hterm : b.successors = [] ∧ insn ≠ .exit ∧ insn ≠ .tailCall
  · rw [if_pos hterm]
    refine Meets.fail (hfall fun h => ?_)
    rcases h hterm.1 with he | he <;> rw [hinsn] at he <;> cases he
    · exact hterm.2.1 rfl
    · exact hterm.2.2 rfl
  · rw [if_neg hterm]
    refine Meets.ok ⟨hr, fun hs => ?_, ?_⟩
    · rw [hinsn, Option.some.injEq, Option.some.injEq]
      by_contra hno
      exact hterm ⟨hs, not_or.1 hno⟩
    · rw [hinsn, Option.some.injEq]
      by_cases hexit : insn = .exit <;> simp [hexit]

/-- **Phase 3.**  Every block is reachable, none runs off its end, some block ends in `Exit`. -/
theorem checkExitReachability_meets {bbs : List BasicBlock}
    (hshape : ∀ b ∈ bbs, b.start < b.stop ∧ b.stop ≤ insns.length)
    (hreach : ∀ b ∈ bbs, b.reachable = false → F (.err (.unreachableCode b.start)))
    (hfall : ∀ b ∈ bbs, ¬ Terminated insns b → F (.err (.fallthroughAfterExit (b.stop - 1))))
    (hexit : (∀ b ∈ bbs, insns[b.stop - 1]? ≠ some .exit) → F (.err .noExitInstruction)) :
    Meets (checkExitReachability insns bbs)
      (fun _ => (∀ b ∈ bbs, b.reachable = true ∧ Terminated insns b) ∧
        ∃ b ∈ bbs, insns[b.stop - 1]? = some .exit) F := by
  let I : ℕ → Bool → Prop := fun k e =>
    (∀ i < k, ∀ b, bbs[i]? = some b → b.reachable = true ∧ Terminated insns b) ∧
    (e = true ↔ ∃ i < k, ∃ b, bbs[i]? = some b ∧ insns[b.stop - 1]? = some .exit)
  have hI0 : I 0 false := ⟨fun i hi => by omega, by simp⟩
  refine (Meets.foldlM I hI0 ?_).bind fun e he => ?_
  · rintro k b e hb ⟨hall, hiff⟩
    have hmem := List.mem_of_getElem? hb
    obtain ⟨hlt, hle⟩ := hshape b hmem
    refine (checkBlock_meets hlt hle (hreach b hmem) (hfall b hmem)).imp fun e' he' => ?_
    obtain ⟨hr, ht, hiff'⟩ := he'
    refine ⟨fun i hi b' hb' => ?_, ?_⟩
    · rcases Nat.lt_succ_iff_lt_or_eq.1 hi with hlt | rfl
      · exact hall i hlt b' hb'
      · rw [hb] at hb'
        cases hb'
        exact ⟨hr, ht⟩
    · rw [hiff', hiff]
      constructor
      · rintro (⟨i, hi, h⟩ | h)
        · exact ⟨i, by omega, h⟩
        · exact ⟨k, by omega, b, hb, h⟩
      · rintro ⟨i, hi, b', hb', h⟩
        rcases Nat.lt_succ_iff_lt_or_eq.1 hi with hlt | rfl
        · exact Or.inl ⟨i, hlt, b', hb', h⟩
        · rw [hb] at hb'
          cases hb'
          exact Or.inr h
  · obtain ⟨hall, hiff⟩ := he
    cases e with
    | true =>
      obtain ⟨i, -, b, hb, h⟩ := hiff.1 rfl
      refine Meets.ok ⟨fun b' hb' => ?_, b, List.mem_of_getElem? hb, h⟩
      obtain ⟨j, hj⟩ := List.getElem?_of_mem hb'
      exact hall j (List.getElem?_eq_some_iff.1 hj).1 b' hj
    | false =>
      refine Meets.fail (hexit fun b hb h => ?_)
      obtain ⟨j, hj⟩ := List.getElem?_of_mem hb
      exact Bool.false_ne_true (hiff.2 ⟨j, (List.getElem?_eq_some_iff.1 hj).1, b, hj, h⟩)

/-! ### Accepted programs -/

/-- What acceptance certifies: every jump stays in the program, every instruction passes its
check under an annotation that is consistent with all edges, the last instruction does not fall
through (a conditional jump excepted), some instruction is `Exit`. -/
structure Verified (insns : List Insn) : Prop where
  ne_nil : insns ≠ []
  targets : TargetsInBounds insns
  certificate : ∃ A : Annotation (Edge insns) (transferAt insns) 0 entryInits,
    ∀ pc, CheckedAt insns pc (A.facts pc)
  last : ∀ insn, insns[insns.length - 1]? = some insn →
    insn = .exit ∨ insn = .tailCall ∨ insn.jumpOff.isSome
  exit : ∃ pc : ℕ, insns[pc]? = some Insn.exit

/-- The facts before the instruction at `pc`, from the in-state of its block. -/
def blockFacts (insns : List Insn) (flags : List Bool) (bbs : List BasicBlock) (pc : ℕ) :
    Set BpfReg :=
  match bbs[rank flags (pc + 1) - 1]? with
  | some b => factsFrom insns b.start b.regStateIn.inits (pc - b.start)
  | none => ∅

theorem blockFacts_of_mem {bbs : List BasicBlock} {i pc : ℕ} {b : BasicBlock}
    (hcfg : Cfg insns flags bbs) (hb : bbs[i]? = some b) (hle : b.start ≤ pc) (hlt : pc < b.stop) :
    blockFacts insns flags bbs pc = factsFrom insns b.start b.regStateIn.inits (pc - b.start) := by
  have h := hcfg.isBlock i b hb
  have hrank := rank_of_mem_block h.start_eq hle (h.stop_eq ▸ hlt)
  rw [blockFacts, hrank, Nat.add_sub_cancel, hb]

/-- Blocks are not empty and lie in the program. -/
theorem Cfg.shape {bbs : List BasicBlock} (hcfg : Cfg insns flags bbs)
    (hmarks : Marks Insn.endsBlock insns flags) :
    ∀ b ∈ bbs, b.start < b.stop ∧ b.stop ≤ insns.length := by
  intro b hb
  obtain ⟨i, hi⟩ := List.getElem?_of_mem hb
  have h := hcfg.isBlock i b hi
  refine ⟨h.stop_eq ▸ start_lt_blockStop h.start_eq, ?_⟩
  rw [h.stop_eq, ← hmarks.length_eq]
  exact blockStop_le flags i

/-- The block of an instruction. -/
theorem Cfg.exists_block {bbs : List BasicBlock} (hcfg : Cfg insns flags bbs)
    (hmarks : Marks Insn.endsBlock insns flags) {pc : ℕ} (hpc : pc < insns.length) :
    ∃ (i : ℕ) (b : BasicBlock), bbs[i]? = some b ∧ b.start ≤ pc ∧ pc < b.stop := by
  have hne : insns ≠ [] := by
    rintro rfl
    exact absurd hpc (by simp)
  obtain ⟨i, s, -, hs, hle, hlt⟩ := Leaders.exists_block (hmarks.isSet_zero hne)
    (hmarks.length_eq ▸ hpc)
  have hi : i < bbs.length := by
    rw [hcfg.length_eq]
    exact (List.getElem?_eq_some_iff.1 hs).1
  have hb := List.getElem?_eq_getElem hi
  have h := hcfg.isBlock i _ hb
  have hstart : s = bbs[i].start := by
    rw [h.start_eq] at hs
    exact (Option.some.inj hs).symm
  exact ⟨i, _, hb, hstart ▸ hle, h.stop_eq ▸ hlt⟩

section Certificate

variable {P : ℕ → Set BpfReg → Prop} {bbs : List BasicBlock}

/-- The block that starts at a leader. -/
theorem Cfg.start_eq_of_rank (hcfg : Cfg insns flags bbs) {q : ℕ} {b : BasicBlock}
    (hq : IsSet flags q) (hb : bbs[rank flags q]? = some b) : b.start = q ∧ q < b.stop := by
  have h := hcfg.isBlock _ b hb
  have hstart : b.start = q := by
    have := h.start_eq
    rw [getElem?_positions_rank hq] at this
    exact (Option.some.inj this).symm
  refine ⟨hstart, ?_⟩
  have := start_lt_blockStop h.start_eq
  rwa [← h.stop_eq, hstart] at this

/-- The facts before a leader are the in-state of its block. -/
theorem blockFacts_of_isSet (hcfg : Cfg insns flags bbs) {q : ℕ} {b : BasicBlock}
    (hq : IsSet flags q) (hb : bbs[rank flags q]? = some b) :
    blockFacts insns flags bbs q = b.regStateIn.inits := by
  obtain ⟨hstart, hlt⟩ := hcfg.start_eq_of_rank hq hb
  rw [blockFacts_of_mem hcfg hb hstart.le hlt, hstart, Nat.sub_self]
  rfl

/-- The facts of settled blocks are consistent with every edge. -/
theorem blockFacts_flow (hmarks : Marks Insn.endsBlock insns flags)
    (h : Flowing insns flags P bbs) (hset : ∀ i < bbs.length, Settled insns bbs i)
    (hreach : ∀ b ∈ bbs, b.reachable = true) {u v : ℕ} (he : Edge insns u v) :
    blockFacts insns flags bbs v ⊆ transferAt insns u (blockFacts insns flags bbs u) := by
  have hu : u < insns.length := by
    obtain ⟨-, insn, hinsn, -⟩ := he
    exact (List.getElem?_eq_some_iff.1 hinsn).1
  obtain ⟨i, b, hb, hle, hlt⟩ := h.exists_block hmarks hu
  have hblock := h.isBlock i b hb
  rw [blockFacts_of_mem h.toCfg hb hle hlt]
  by_cases hlast : u + 1 < b.stop
  · -- inside the block
    obtain rfl := (edge_iff_of_mem_block hmarks hblock.start_eq hle (hblock.stop_eq ▸ hlast)).1 he
    rw [blockFacts_of_mem h.toCfg hb (by omega) hlast, Nat.sub_add_comm hle, factsFrom,
      Nat.add_sub_cancel' hle]
  · -- from the last instruction of the block
    obtain rfl : u = b.stop - 1 := by omega
    have hq := isSet_of_edge_last hmarks hblock.stop_eq (by omega) he
    have hi := (List.getElem?_eq_some_iff.1 hb).1
    have hmem := (hblock.mem_successors _).2 ⟨v, he, rfl⟩
    obtain ⟨b', hb', -, hsub⟩ :=
      (hset i hi b hb (hreach b (List.mem_of_getElem? hb))).2 _ hmem
    rw [blockFacts_of_isSet h.toCfg hq hb', ← BasicBlock.factsOut_eq (by omega)]
    exact hsub

/-- **Soundness of the certificate.**  Settled blocks that are all reachable and terminated. -/
theorem verified_of_settled (hne : insns ≠ []) (htargets : TargetsInBounds insns)
    (hmarks : Marks Insn.endsBlock insns flags) (h : Flowing insns flags P bbs)
    (hset : ∀ i < bbs.length, Settled insns bbs i)
    (hall : ∀ b ∈ bbs, b.reachable = true ∧ Terminated insns b)
    (hexit : ∃ b ∈ bbs, insns[b.stop - 1]? = some .exit) : Verified insns := by
  have hpos : 0 < insns.length := List.length_pos_iff.2 hne
  have hreach : ∀ b ∈ bbs, b.reachable = true := fun b hb => (hall b hb).1
  have hentry : blockFacts insns flags bbs 0 ⊆ entryInits := by
    obtain ⟨i, b, hb, hle, hlt⟩ := h.exists_block hmarks hpos
    have hset0 := hmarks.isSet_zero hne
    obtain ⟨b0, hb0⟩ : ∃ b0, bbs[rank flags 0]? = some b0 := by
      rw [rank_zero]
      exact ⟨_, List.getElem?_eq_getElem (by have := (List.getElem?_eq_some_iff.1 hb).1; omega)⟩
    rw [blockFacts_of_isSet h.toCfg hset0 hb0]
    rw [rank_zero] at hb0
    exact (h.entry b0 hb0).2
  have hchecked : ∀ pc, CheckedAt insns pc (blockFacts insns flags bbs pc) := by
    intro pc insn hinsn
    obtain ⟨i, b, hb, hle, hlt⟩ := h.exists_block hmarks (List.getElem?_eq_some_iff.1 hinsn).1
    have hi := (List.getElem?_eq_some_iff.1 hb).1
    rw [blockFacts_of_mem h.toCfg hb hle hlt]
    refine (hset i hi b hb (hreach b (List.mem_of_getElem? hb))).1 _ (by omega) insn ?_
    rwa [Nat.add_sub_cancel' hle]
  refine ⟨hne, htargets, ⟨⟨_, hentry, fun u v he => blockFacts_flow hmarks h hset hreach he⟩,
    hchecked⟩, fun insn hinsn => ?_, ?_⟩
  · obtain ⟨i, b, hb, hle, hlt⟩ := h.exists_block hmarks (show insns.length - 1 < _ by omega)
    have hblock := h.isBlock i b hb
    have hstop : b.stop = insns.length := by
      have := blockStop_le flags i
      rw [← hblock.stop_eq, hmarks.length_eq] at this
      omega
    by_contra hno
    push Not at hno
    have hsucc : b.successors = [] := by
      refine List.eq_nil_iff_forall_not_mem.2 fun j hj => ?_
      obtain ⟨q, ⟨hq, i', hi', h1 | ⟨off, hoff, -⟩⟩, -⟩ := (hblock.mem_successors j).1 hj
      · omega
      · rw [hstop, hinsn] at hi'
        cases hi'
        exact hno.2.2 (by rw [hoff]; rfl)
    have hterm := (hall b (List.mem_of_getElem? hb)).2 hsucc
    rw [hstop, hinsn] at hterm
    rcases hterm with he | he <;> cases he
    · exact hno.1 rfl
    · exact hno.2.1 rfl
  · obtain ⟨b, -, hb⟩ := hexit
    exact ⟨_, hb⟩

end Certificate

/-- The state at the end of phase 2, when no pass changes anything any more. -/
structure Converged (insns : List Insn) (flags : List Bool) (P : ℕ → Set BpfReg → Prop)
    (bbs : List BasicBlock) : Prop extends Flowing insns flags P bbs where
  ne_nil : insns ≠ []
  targets : TargetsInBounds insns
  marks : Marks Insn.endsBlock insns flags
  settled : ∀ i < bbs.length, Settled insns bbs i

/-- **The three phases.**  What the verifier returns, and where each of its faults is raised. -/
theorem verifyProgram_phases {P : ℕ → Set BpfReg → Prop} (hP : FlowClosed insns P)
    (hempty : insns = [] → F (.err .emptyProgram)) (hpanic : Oversized insns → F .panic)
    (hbranch : ∀ (pc : ℕ) insn off, insns[pc]? = some insn → insn.jumpOff = some off →
      ∀ t : ℤ, t = pc + 1 + off.toInt → ¬ (0 ≤ t ∧ t < insns.length) →
      F (.err (.branchOutOfBounds pc t)))
    (hfaulty : ∀ pc insn I f, insns[pc]? = some insn → P pc I → insn.Faulty pc I f → F f)
    (hbudget : F (.err (.backEdgeBudgetExceeded 0)))
    (hreach : ∀ flags bbs, Converged insns flags P bbs → ∀ b ∈ bbs, b.reachable = false →
      F (.err (.unreachableCode b.start)))
    (hfall : ∀ flags bbs, Converged insns flags P bbs → ∀ b ∈ bbs, ¬ Terminated insns b →
      F (.err (.fallthroughAfterExit (b.stop - 1))))
    (hexit : ∀ flags bbs, Converged insns flags P bbs →
      (∀ b ∈ bbs, insns[b.stop - 1]? ≠ some .exit) → F (.err .noExitInstruction)) :
    Meets (verifyProgram insns)
      (fun n => ∃ flags bbs, Converged insns flags P bbs ∧ n = (positions flags).length ∧
        (∀ b ∈ bbs, b.reachable = true ∧ Terminated insns b) ∧
        ∃ b ∈ bbs, insns[b.stop - 1]? = some .exit) F := by
  unfold verifyProgram
  split_ifs with hne
  · exact Meets.fail (hempty hne)
  refine (findBbStarts_meets hne hpanic hbranch).bind fun starts hstarts => ?_
  obtain ⟨htargets, flags, hmarks, rfl⟩ := hstarts
  refine (buildCfg_meets hmarks htargets hpanic).bind fun bbs hbbs => ?_
  obtain ⟨hcfg, hinit⟩ := hbbs
  have hflow : Flowing insns flags P bbs := by
    refine ⟨hcfg, fun b hb => ?_, fun i b hb hr => ?_⟩
    · obtain ⟨hr, hs⟩ := hinit 0 b hb
      exact ⟨by simpa using hr, by rw [hs rfl, RegFile.inits_newEntry]⟩
    · -- only the first block is reachable at first
      obtain ⟨hr', hs⟩ := hinit i b hb
      rw [hr, eq_comm, decide_eq_true_eq] at hr'
      subst hr'
      have hstart := (hcfg.isBlock 0 b hb).start_eq
      have hfirst := getElem?_positions_rank (hmarks.isSet_zero hne)
      rw [rank_zero, hstart] at hfirst
      rw [Option.some.inj hfirst, hs rfl, RegFile.inits_newEntry]
      exact hP.entry
  refine (dataflowLoop_meets hP hmarks hfaulty hbudget _ hflow).bind fun bbs' hbbs' => ?_
  obtain ⟨hflow', hset⟩ := hbbs'
  have hconv : Converged insns flags P bbs' := ⟨hflow', hne, htargets, hmarks, hset⟩
  refine (checkExitReachability_meets (hflow'.shape hmarks) (hreach _ _ hconv) (hfall _ _ hconv)
    (hexit _ _ hconv)).bind fun _ hexit => ?_
  exact Meets.ok ⟨flags, bbs', hconv, hflow'.length_eq, hexit.1, hexit.2⟩

/-- Why the verifier stops without a result, as far as it concerns the analysis: the instruction
is faulty for a set `I` with `P pc I`, or its block is not reachable at convergence. -/
def Rejection (insns : List Insn) (P : ℕ → Set BpfReg → Prop) : Fault VerifyError → Prop
  | .panic => Oversized insns
  | .err e =>
    match e with
    | .uninitializedRegRead pc _ | .writeToR10 pc | .stackOutOfBounds pc _ =>
      ∃ insn I, insns[pc]? = some insn ∧ P pc I ∧ insn.Faulty pc I (.err e)
    | .unreachableCode pc => ∃ flags bbs, Converged insns flags P bbs ∧
      ∃ b ∈ bbs, b.start = pc ∧ b.reachable = false
    | _ => True

theorem rejection_of_faulty {P : ℕ → Set BpfReg → Prop} {pc : ℕ} {insn : Insn} {I : Set BpfReg}
    {f : Fault VerifyError} (hget : insns[pc]? = some insn) (hP : P pc I)
    (hf : insn.Faulty pc I f) : Rejection insns P f := by
  cases f with
  | panic => exact hf.elim
  | err e =>
    cases e with
    | uninitializedRegRead p r | writeToR10 p | stackOutOfBounds p off =>
      obtain rfl := hf.1
      exact ⟨insn, I, hget, hP, hf⟩
    | _ => exact hf.elim

/-- **The verifier**, with what the analysis maintains. -/
theorem verifyProgram_flow {P : ℕ → Set BpfReg → Prop} (hP : FlowClosed insns P) :
    Meets (verifyProgram insns)
      (fun n => ∃ flags bbs, Converged insns flags P bbs ∧ n = (positions flags).length ∧
        (∀ b ∈ bbs, b.reachable = true ∧ Terminated insns b) ∧
        ∃ b ∈ bbs, insns[b.stop - 1]? = some .exit)
      (Rejection insns P) :=
  verifyProgram_phases hP (fun _ => trivial) (fun h => h) (fun _ _ _ _ _ _ _ _ => trivial)
    (fun _ _ _ _ => rejection_of_faulty) trivial
    (fun flags bbs hconv b hb hr => ⟨flags, bbs, hconv, b, hb, rfl, hr⟩)
    (fun _ _ _ _ _ _ => trivial) fun _ _ _ _ => trivial

/-- **The verifier.**  It panics on no program that can exist; what it accepts is `Verified`, and
the value it returns is the number of leaders. -/
theorem verifyProgram_meets (insns : List Insn) :
    Meets (verifyProgram insns)
      (fun n => Verified insns ∧
        ∃ flags, Marks Insn.endsBlock insns flags ∧ n = (positions flags).length)
      (fun f => f = .panic → Oversized insns) := by
  have hP : FlowClosed insns fun _ _ => True := ⟨trivial, fun _ _ _ _ _ => trivial,
    fun _ _ _ _ _ => trivial⟩
  refine (verifyProgram_flow hP).mono ?_ ?_
  · rintro n ⟨flags, bbs, h, hn, hall, hexit⟩
    exact ⟨verified_of_settled h.ne_nil h.targets h.marks h.toFlowing h.settled hall hexit, flags,
      h.marks, hn⟩
  · rintro f hf rfl
    exact hf

/-- What acceptance certifies. -/
theorem verified_of_verifyProgram {n : ℕ} (h : verifyProgram insns = .ok n) : Verified insns :=
  ((verifyProgram_meets insns).of_ok h).1

end NVMirror
