import NVMirror.EbpfCore.Dataflow
import NVMirror.JitEngine.Steps

/-!
# Runs of accepted programs

The certificate of the verifier, carried along a run of the interpreter.

* `verifyProgram_sound`: with the set of initialised registers tracked along the run, every
  instruction executed reads initialised registers only, and `R10` is never written.
* `verifyProgram_independent`: two runs that differ only in uninitialised registers agree in
  everything the program can observe.
-/

namespace NVMirror

open Rust MustAnalysis

variable [Profile] {stackPtr : U64} {insns : List Insn}

/-! ### Steps are edges -/

omit [Profile] in
/-- Executing an instruction follows an edge of the program, unless it leaves the program. -/
theorem Keeps.edge {s s' : InterpreterState} {insn : Insn} (htargets : TargetsInBounds insns)
    (hinsn : insns[s.pc]? = some insn) (hne : insn ≠ .exit) (h : Keeps insn s s')
    (hlt : s'.pc < insns.length) : Edge insns s.pc s'.pc := by
  refine ⟨hlt, insn, hinsn, ?_⟩
  rcases h.pc with ⟨htaken, hpc⟩ | ⟨htaken, off, hoff, hpc⟩
  · exact Or.inl ⟨Insn.fallsThrough_of_not_taken hne htaken, hpc⟩
  · obtain ⟨q, hq, ht⟩ := htargets _ insn off hinsn hoff
    refine Or.inr ⟨off, hoff, ?_⟩
    rwa [jumpPc_of_isTarget hpc ht]

/-- The set `I` is what the path to the current instruction initialises. -/
def Tracked (insns : List Insn) (s : InterpreterState) (I : Set BpfReg) : Prop :=
  s.halted = false → s.pc < insns.length →
    Tracks (Edge insns) (transferAt insns) 0 entryInits s.pc I

omit [Profile] in
theorem Tracked.start (regs : BpfReg → U64) (stack : Fin stackSize → U8) :
    Tracked insns (.start regs stack) entryInits :=
  fun _ _ => Tracks.start

omit [Profile] in
theorem Tracked.of_executed {s : InterpreterState} {I : Set BpfReg} (h : Tracked insns s I)
    {insn : Insn} (he : executed insns s = some insn) :
    Tracks (Edge insns) (transferAt insns) 0 entryInits s.pc I := by
  obtain ⟨hhalt, hget⟩ := executed_eq_some.1 he
  exact h hhalt (List.getElem?_eq_some_iff.1 hget).1

omit [Profile] in
/-- The certificate at an executed instruction. -/
theorem Verified.checked_of_tracked (hv : Verified insns) {s : InterpreterState}
    {I : Set BpfReg} (h : Tracked insns s I) {insn : Insn} (he : executed insns s = some insn) :
    insn.reads ⊆ I ∧ BpfReg.r10 ∉ insn.writes := by
  obtain ⟨A, hA⟩ := hv.certificate
  have hsub := A.subset_of_tracks (transferAt_mono insns) (h.of_executed he)
  have hcheck := hA s.pc insn (executed_eq_some.1 he).2
  exact ⟨hcheck.reads_subset.trans hsub, hcheck.not_writes⟩

/-- A step keeps track. -/
theorem Tracked.step (hv : Verified insns) {s s' : InterpreterState} {I : Set BpfReg} {c : Bool}
    {insn : Insn} (h : Tracked insns s I) (he : executed insns s = some insn)
    (hs : step stackPtr insns s = .ok (s', c)) : Tracked insns s' (insn.transfer I) := by
  obtain ⟨hhalt, hinsn⟩ := executed_eq_some.1 he
  rcases step_cases hs with ⟨hn, -⟩ | ⟨insn', he', ⟨-, hne, -, hk⟩ | ⟨-, -, rfl⟩⟩
  · rw [he] at hn
    cases hn
  · rw [he] at he'
    cases he'
    intro _ hlt
    have htrans : insn.transfer I = transferAt insns s.pc I := by rw [transferAt, hinsn]
    rw [htrans]
    exact Tracks.step (h.of_executed he) (hk.edge hv.targets hinsn hne hlt)
  · intro hhalt'
    cases hhalt'

/-! ### One run -/

/-- A step of the interpreter, with the set of initialised registers. -/
def track (stackPtr : U64) (insns : List Insn) (x : InterpreterState × Set BpfReg) :
    Rust Empty (InterpreterState × Set BpfReg) := do
  let (s, _) ← step stackPtr insns x.1
  pure (s, match executed insns x.1 with
    | some insn => insn.transfer x.2
    | none => x.2)

/-- `k` tracked steps. -/
abbrev trackN (stackPtr : U64) (insns : List Insn) (x : InterpreterState × Set BpfReg) :
    ℕ → Rust Empty (InterpreterState × Set BpfReg) :=
  steps (track stackPtr insns) x

/-- Tracking does not change the run. -/
theorem trackN_fst (s : InterpreterState) (I : Set BpfReg) (k : ℕ) :
    (trackN stackPtr insns (s, I) k).map Prod.fst = stepN stackPtr insns s k := by
  refine steps_map (fun x => ?_) (s, I) k
  simp only [track, stepState]
  cases step stackPtr insns x.1 <;> rfl

theorem track_tracked (hv : Verified insns) {x y : InterpreterState × Set BpfReg}
    (h : Tracked insns x.1 x.2) (hy : track stackPtr insns x = .ok y) :
    Tracked insns y.1 y.2 ∧ y.1.regs BpfReg.r10 = x.1.regs BpfReg.r10 := by
  obtain ⟨⟨s', c⟩, hs, hy⟩ := bind_eq_ok.1 hy
  cases hy
  rcases step_cases hs with ⟨he, -, rfl⟩ | ⟨insn, he, hout⟩
  · rw [he]
    exact ⟨h, rfl⟩
  · rw [he]
    refine ⟨h.step hv he hs, ?_⟩
    rcases hout with ⟨-, -, -, hk⟩ | ⟨-, -, rfl⟩
    · exact hk.regs _ (hv.checked_of_tracked h he).2
    · rfl

theorem trackN_tracked (hv : Verified insns) {x y : InterpreterState × Set BpfReg} {k : ℕ}
    (h : Tracked insns x.1 x.2) (hy : trackN stackPtr insns x k = .ok y) :
    Tracked insns y.1 y.2 ∧ y.1.regs BpfReg.r10 = x.1.regs BpfReg.r10 := by
  refine steps_induction (I := fun z => Tracked insns z.1 z.2 ∧ z.1.regs BpfReg.r10 =
    x.1.regs BpfReg.r10) ⟨h, rfl⟩ ?_ hy
  rintro z y ⟨htrack, hr10⟩ hy
  obtain ⟨htrack', hr10'⟩ := track_tracked hv htrack hy
  exact ⟨htrack', hr10'.trans hr10⟩

/-- **Soundness of the verifier.**  In every run of an accepted program, every instruction
executed reads only registers in the tracked set and does not write `R10`, which keeps its
initial value. -/
theorem verifyProgram_sound {n : ℕ} (h : verifyProgram insns = .ok n) (stackPtr : U64)
    (regs : BpfReg → U64) (stack : Fin stackSize → U8) {k : ℕ} {s : InterpreterState}
    {I : Set BpfReg}
    (hrun : trackN stackPtr insns (.start regs stack, entryInits) k = .ok (s, I)) :
    (∀ insn, executed insns s = some insn → insn.reads ⊆ I ∧ BpfReg.r10 ∉ insn.writes) ∧
      s.regs BpfReg.r10 = regs BpfReg.r10 := by
  have hv := verified_of_verifyProgram h
  obtain ⟨htrack, hr10⟩ := trackN_tracked hv (Tracked.start regs stack) hrun
  exact ⟨fun insn he => hv.checked_of_tracked htrack he, hr10⟩

/-- `r6 = r1; if r1 == 0 goto +1; call 4; r0 = r6; exit`. -/
def mergeAfterCall : List Insn :=
  [.alu64 .mov BpfReg.r6 (.reg BpfReg.r1), .jmpCond .jeq BpfReg.r1 (.imm 0) 1, .call 4,
    .alu64 .mov BpfReg.r0 (.reg BpfReg.r6), .exit]

omit [Profile] in
/-- `verifyProgram_sound` at `mergeAfterCall`, where the call and the jump over it have met: `R6` is
initialised, and `R1` no longer is. -/
theorem verifyProgram_sound_mergeAfterCall :
    ∃ s I, @trackN debug 0x1000 mergeAfterCall
        (.start (Function.update (fun _ => 0) BpfReg.r1 5) fun _ => 0, entryInits) 3 =
          .ok (s, I) ∧ executed mergeAfterCall s = some (.alu64 .mov BpfReg.r0 (.reg BpfReg.r6)) ∧
      BpfReg.r6 ∈ I ∧ BpfReg.r1 ∉ I ∧ s.regs BpfReg.r10 = 0 := by
  have hok : verifyProgram mergeAfterCall = .ok 3 := rfl
  refine ⟨_, _, rfl, rfl, ?_⟩
  have h := @verifyProgram_sound debug mergeAfterCall 3 hok 0x1000
    (Function.update (fun _ => 0) BpfReg.r1 5) (fun _ => 0) 3 _ _ rfl
  refine ⟨(h.1 _ rfl).1 (by simp [Insn.reads, Source.reads]), ?_, h.2⟩
  show BpfReg.r1 ∉ insert BpfReg.r0 _ \ Insn.callClobbers
  exact fun hmem => hmem.2 (by simp [Insn.callClobbers])

/-! ### Two runs -/

/-- Two states that differ at most in the registers outside `I`. -/
structure Agree (I : Set BpfReg) (s t : InterpreterState) : Prop where
  pc : s.pc = t.pc
  stack : s.stack = t.stack
  halted : s.halted = t.halted
  regs : ∀ r ∈ I, s.regs r = t.regs r

namespace Agree

omit [Profile]

variable {I : Set BpfReg} {s t : InterpreterState}

theorem resolveSource (h : Agree I s t) {src : Source} (hsrc : src.reads ⊆ I) :
    resolveSource s.regs src = resolveSource t.regs src := by
  cases src with
  | imm v => rfl
  | reg r => exact h.regs r (hsrc rfl)

theorem executed (h : Agree I s t) : executed insns s = executed insns t := by
  unfold NVMirror.executed
  rw [h.pc, h.halted]

theorem advance (h : Agree I s t) :
    Rel (fun x y => x.2 = y.2 ∧ Agree I x.1 y.1) (advance s) (advance t) := by
  unfold NVMirror.advance
  rw [h.pc]
  exact Rel.bind_same _ fun pc => Rel.ok ⟨rfl, rfl, h.stack, h.halted, h.regs⟩

theorem branch (h : Agree I s t) (taken : Bool) (off : I16) :
    Rel (fun x y => x.2 = y.2 ∧ Agree I x.1 y.1) (branch s taken off) (branch t taken off) := by
  unfold NVMirror.branch
  cases taken with
  | false => exact h.advance
  | true =>
    rw [if_pos rfl, if_pos rfl, h.pc]
    exact Rel.bind_same _ fun pc => Rel.ok ⟨rfl, rfl, h.stack, h.halted, h.regs⟩

theorem setReg (h : Agree I s t) (dst : BpfReg) (v : U64) :
    Agree (I ∪ {dst}) (s.setReg dst v) (t.setReg dst v) := by
  refine ⟨h.pc, h.stack, h.halted, fun r hr => ?_⟩
  dsimp only [InterpreterState.setReg]
  by_cases hd : r = dst
  · subst hd
    rw [Function.update_self, Function.update_self]
  · rw [Function.update_of_ne hd, Function.update_of_ne hd]
    exact h.regs r (hr.resolve_right hd)

theorem setStack (h : Agree I s t) (stack : Fin stackSize → U8) :
    Agree I { s with stack } { t with stack } :=
  ⟨h.pc, rfl, h.halted, h.regs⟩

theorem weaken (h : Agree I s t) {J : Set BpfReg} (hJ : J ⊆ I) : Agree J s t :=
  ⟨h.pc, h.stack, h.halted, fun r hr => h.regs r (hJ hr)⟩

theorem advance_weaken (h : Agree I s t) {J : Set BpfReg} (hJ : J ⊆ I) :
    Rel (fun x y => x.2 = y.2 ∧ Agree J x.1 y.1) (NVMirror.advance s) (NVMirror.advance t) :=
  h.advance.mono fun _ _ hxy => ⟨hxy.1, hxy.2.weaken hJ⟩

end Agree

theorem evalAlu64_congr {op : AluOp} {a b : U64} (h : op ≠ .mov → a = b) (src : U64) :
    evalAlu64 op a src = evalAlu64 op b src := by
  by_cases hop : op = .mov
  · subst hop
    rfl
  · rw [h hop]

theorem evalAlu32_congr {op : AluOp} {a b : U32} (h : op ≠ .mov → a = b) (src : U32) :
    evalAlu32 op a src = evalAlu32 op b src := by
  by_cases hop : op = .mov
  · subst hop
    rfl
  · rw [h hop]

/-- An instruction whose operands agree has the same effect on both states. -/
theorem stepInsn_agree {I : Set BpfReg} {s t : InterpreterState} (h : Agree I s t) {insn : Insn}
    (hreads : insn.reads ⊆ I) :
    Rel (fun x y => x.2 = y.2 ∧ Agree (insn.transfer I) x.1 y.1) (stepInsn stackPtr s insn)
      (stepInsn stackPtr t insn) := by
  cases insn with
  | alu64 op dst src =>
    have hsrc := h.resolveSource (Set.union_subset_iff.1 hreads).1
    have hdst : op ≠ .mov → s.regs dst = t.regs dst := fun hop =>
      h.regs dst (hreads (Or.inr (by simp [hop])))
    dsimp only [stepInsn]
    rw [hsrc, evalAlu64_congr hdst]
    exact Rel.bind_same _ fun v => (h.setReg dst v).advance
  | alu32 op dst src =>
    have hsrc := h.resolveSource (Set.union_subset_iff.1 hreads).1
    have hdst : op ≠ .mov → (s.regs dst).setWidth 32 = (t.regs dst).setWidth 32 := fun hop => by
      rw [h.regs dst (hreads (Or.inr (by simp [hop])))]
    dsimp only [stepInsn]
    rw [hsrc, evalAlu32_congr hdst]
    exact Rel.bind_same _ fun v => (h.setReg dst _).advance
  | loadImm64 dst imm => exact (h.setReg dst imm).advance
  | endian toBe width dst =>
    dsimp only [stepInsn]
    rw [h.regs dst (hreads rfl)]
    exact (h.setReg dst _).advance
  | call funcId =>
    refine (h.setReg BpfReg.r0 0).advance_weaken ?_
    rintro r ⟨hr, -⟩
    exact hr.symm
  | load width dst src off =>
    dsimp only [stepInsn]
    rw [h.regs src (hreads rfl), h.stack]
    refine Rel.bind_same _ fun rel => Rel.bind_same _ fun v => ?_
    exact (h.setReg dst v).advance
  | storeReg width dst src off =>
    dsimp only [stepInsn]
    rw [h.regs dst (hreads (Or.inl rfl)), h.regs src (hreads (Or.inr rfl)), h.stack]
    refine Rel.bind_same _ fun rel => Rel.bind_same _ fun stack => ?_
    exact (h.setStack stack).advance_weaken (by simp [Insn.transfer, Insn.writes])
  | storeImm width dst off imm =>
    dsimp only [stepInsn]
    rw [h.regs dst (hreads rfl), h.stack]
    refine Rel.bind_same _ fun rel => Rel.bind_same _ fun stack => ?_
    exact (h.setStack stack).advance_weaken (by simp [Insn.transfer, Insn.writes])
  | atomic width op dst src off =>
    exact h.advance_weaken (by simp [Insn.transfer, Insn.writes])
  | ja off =>
    exact (h.weaken (by simp [Insn.transfer, Insn.writes])).branch true off
  | jmpCond op dst src off | jmpCond32 op dst src off =>
    have hsrc := h.resolveSource ((Set.insert_subset_iff.1 hreads).2)
    dsimp only [stepInsn]
    rw [hsrc, h.regs dst (hreads (Or.inl rfl))]
    exact (h.weaken (by simp [Insn.transfer, Insn.writes])).branch _ off
  | exit | tailCall =>
    exact Rel.ok ⟨rfl, h.pc, h.stack, rfl, fun r hr => h.regs r (by
      simpa [Insn.transfer, Insn.writes] using hr)⟩

/-- The relation between the two runs: they agree on a tracked set, which contains `R0` once they
have exited. -/
def InStep (insns : List Insn) (s t : InterpreterState) : Prop :=
  ∃ I, Agree I s t ∧ Tracked insns s I ∧ (Exited insns s → BpfReg.r0 ∈ I)

omit [Profile] in
/-- Runs that start with the same `R1`, `R10` and stack start in step. -/
theorem InStep.start {regs regs' : BpfReg → U64} (stack : Fin stackSize → U8)
    (hr1 : regs BpfReg.r1 = regs' BpfReg.r1) (hr10 : regs BpfReg.r10 = regs' BpfReg.r10) :
    InStep insns (.start regs stack) (.start regs' stack) := by
  refine ⟨entryInits, ⟨rfl, rfl, rfl, ?_⟩, Tracked.start regs stack, fun he => by cases he.1⟩
  rintro r (rfl | rfl)
  · exact hr1
  · exact hr10

/-- A step keeps two runs in step. -/
theorem InStep.step (hv : Verified insns) {s t : InterpreterState} (h : InStep insns s t) :
    Rel (fun x y => InStep insns x.1 y.1) (step stackPtr insns s) (step stackPtr insns t) := by
  obtain ⟨I, hagree, htrack, hexit⟩ := h
  have hsame : executed insns s = executed insns t := hagree.executed
  cases he : executed insns s with
  | none =>
    rw [step_of_not_executed he, step_of_not_executed (hsame ▸ he)]
    exact Rel.ok ⟨I, hagree, htrack, hexit⟩
  | some insn =>
    have hreads := (hv.checked_of_tracked htrack he).1
    rw [step_of_executed he, step_of_executed (hsame ▸ he)]
    refine (stepInsn_agree hagree hreads).imp fun x y hx _ hxy => ?_
    refine ⟨_, hxy.2, htrack.step hv he ((step_of_executed he).trans hx), fun hex => ?_⟩
    obtain ⟨hhalt, hinsn⟩ := executed_eq_some.1 he
    rcases stepInsn_cases hx with ⟨-, -, -, hk⟩ | ⟨-, -, hx'⟩
    · rw [Exited, hk.halted, hhalt] at hex
      cases hex.1
    · rw [Exited, hx', hinsn] at hex
      cases hex.2
      exact Or.inl (hreads rfl)

theorem InStep.stepN (hv : Verified insns) {s t : InterpreterState} (h : InStep insns s t)
    (k : ℕ) : Rel (InStep insns) (stepN stackPtr insns s k) (stepN stackPtr insns t k) := by
  induction k with
  | zero => exact Rel.ok h
  | succ k ih =>
    refine ih.bind fun u v huv => ?_
    exact (huv.step hv).bind fun x y hxy => Rel.ok hxy

/-- **Results do not depend on uninitialised registers.**  Two runs of an accepted program that
start with the same `R1`, `R10` and stack panic at the same step or not at all; at every step
count they have the same `pc` and stack, and exit together with the same `R0`. -/
theorem verifyProgram_independent {n : ℕ} (h : verifyProgram insns = .ok n) (stackPtr : U64)
    {regs regs' : BpfReg → U64} (stack : Fin stackSize → U8)
    (hr1 : regs BpfReg.r1 = regs' BpfReg.r1) (hr10 : regs BpfReg.r10 = regs' BpfReg.r10) (k : ℕ) :
    Rel (fun s t => s.pc = t.pc ∧ s.stack = t.stack ∧ (Exited insns s ↔ Exited insns t) ∧
        (Exited insns s → s.regs BpfReg.r0 = t.regs BpfReg.r0))
      (stepN stackPtr insns (.start regs stack) k)
      (stepN stackPtr insns (.start regs' stack) k) := by
  have hstart : InStep insns (.start regs stack) (.start regs' stack) :=
    InStep.start stack hr1 hr10
  refine (hstart.stepN (verified_of_verifyProgram h) k).mono fun s t hst => ?_
  obtain ⟨I, hagree, -, hexit⟩ := hst
  refine ⟨hagree.pc, hagree.stack, ?_, fun he => hagree.regs _ (hexit he)⟩
  rw [Exited, Exited, hagree.pc, hagree.halted]

omit [Profile] in
/-- `verifyProgram_independent` at `mergeAfterCall`, from registers that agree in `R1` and `R10`
only. -/
theorem verifyProgram_independent_mergeAfterCall :
    ∃ s t, @stepN debug 0x1000 mergeAfterCall
        (.start ![0, 5, 0, 0, 0, 0, 0, 0, 0, 0, 0] fun _ => 0) 5 = .ok s ∧
      @stepN debug 0x1000 mergeAfterCall
        (.start ![9, 5, 9, 9, 9, 9, 9, 9, 9, 9, 0] fun _ => 0) 5 = .ok t ∧
      Exited mergeAfterCall s ∧ Exited mergeAfterCall t ∧
      s.regs BpfReg.r0 = 5 ∧ t.regs BpfReg.r0 = 5 := by
  have hok : verifyProgram mergeAfterCall = .ok 3 := rfl
  have hone : (@stepN debug 0x1000 mergeAfterCall
      (.start ![0, 5, 0, 0, 0, 0, 0, 0, 0, 0, 0] fun _ => 0) 5).toOption.map
        (fun s => (s.pc, s.halted, s.regs BpfReg.r0)) = some (4, true, 5) := by
    decide +kernel
  obtain ⟨s, hs, hproj⟩ := Option.map_eq_some_iff.1 hone
  obtain ⟨hpc, hhalted, hr0⟩ : s.pc = 4 ∧ s.halted = true ∧ s.regs BpfReg.r0 = 5 := by
    simpa using hproj
  have hexit : Exited mergeAfterCall s := ⟨hhalted, by rw [hpc]; rfl⟩
  -- the other run
  have h := @verifyProgram_independent debug mergeAfterCall 3 hok 0x1000
    ![0, 5, 0, 0, 0, 0, 0, 0, 0, 0, 0] ![9, 5, 9, 9, 9, 9, 9, 9, 9, 9, 0] (fun _ => 0)
    (by decide) (by decide) 5
  rw [ok_of_toOption hs] at h
  cases ht : @stepN debug 0x1000 mergeAfterCall
      (.start ![9, 5, 9, 9, 9, 9, 9, 9, 9, 9, 0] fun _ => 0) 5 with
  | error f =>
    rw [ht] at h
    exact h.elim
  | ok t =>
    rw [ht] at h
    obtain ⟨-, -, hiff, hsame⟩ := h
    exact ⟨s, t, ok_of_toOption hs, rfl, hexit, hiff.1 hexit, hr0, (hsame hexit).symm.trans hr0⟩

end NVMirror
