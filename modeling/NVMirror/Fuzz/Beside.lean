import NVMirror.Fuzz.Operands
import NVMirror.Fuzz.Programs
import NVMirror.JitEngine.Arithmetic
import NVMirror.JitEngine.Soundness

/-!
# Generated programs do not depend on memory

Generated programs access no memory and do not read `R10`, so two runs that start with the same `R1`
do the same, wherever their stack buffers are and whatever is in them (`InParallel.stepN`).
The second run is one with wrapping negation.
-/

namespace NVMirror

open Rust

/-- Two states that differ at most in the stack, in `R10` and in registers outside `I`. -/
structure Beside (I : Set BpfReg) (s t : InterpreterState) : Prop where
  pc : s.pc = t.pc
  halted : s.halted = t.halted
  regs : ∀ r ∈ I, r ≠ BpfReg.r10 → s.regs r = t.regs r

section

variable [Profile]

theorem evalAlu64_of_ne_neg {op : AluOp} (hop : op ≠ .neg) (a b : U64) :
    evalAlu64 op a b = @evalAlu64 release op a b := by
  cases op with
  | neg => exact absurd rfl hop
  | _ => rfl

theorem evalAlu32_of_ne_neg {op : AluOp} (hop : op ≠ .neg) (a b : U32) :
    evalAlu32 op a b = @evalAlu32 release op a b := by
  cases op with
  | neg => exact absurd rfl hop
  | _ => rfl

end

namespace Beside

variable {I : Set BpfReg} {s t s' : InterpreterState} {insns : List Insn}

theorem executed (h : Beside I s t) : executed insns s = executed insns t := by
  unfold NVMirror.executed
  rw [h.pc, h.halted]

theorem resolveSource (h : Beside I s t) {src : Source} (hsrc : src.reads ⊆ I)
    (h10 : BpfReg.r10 ∉ src.reads) : resolveSource s.regs src = resolveSource t.regs src := by
  cases src with
  | imm v => rfl
  | reg r => exact h.regs r (hsrc rfl) fun hr => h10 hr.symm

theorem weaken (h : Beside I s t) {J : Set BpfReg} (hJ : J ⊆ I) : Beside J s t :=
  ⟨h.pc, h.halted, fun r hr => h.regs r (hJ hr)⟩

theorem setReg (h : Beside I s t) (dst : BpfReg) (v : U64) :
    Beside (I ∪ {dst}) (s.setReg dst v) (t.setReg dst v) := by
  refine ⟨h.pc, h.halted, fun r hr h10 => ?_⟩
  dsimp only [InterpreterState.setReg]
  by_cases hd : r = dst
  · subst hd
    rw [Function.update_self, Function.update_self]
  · rw [Function.update_of_ne hd, Function.update_of_ne hd]
    exact h.regs r (hr.resolve_right hd) h10

theorem advance (h : Beside I s t) :
    Rel (fun x y => x.2 = y.2 ∧ Beside I x.1 y.1) (advance s) (advance t) := by
  unfold NVMirror.advance
  rw [h.pc]
  exact Rel.bind_same _ fun pc => Rel.ok ⟨rfl, rfl, h.halted, h.regs⟩

theorem branch (h : Beside I s t) (taken : Bool) (off : I16) :
    Rel (fun x y => x.2 = y.2 ∧ Beside I x.1 y.1) (branch s taken off) (branch t taken off) := by
  unfold NVMirror.branch
  cases taken with
  | false => exact h.advance
  | true =>
    rw [if_pos rfl, if_pos rfl, h.pc]
    exact Rel.bind_same _ fun pc => Rel.ok ⟨rfl, rfl, h.halted, h.regs⟩

/-- **One instruction.** -/
theorem stepInsn [Profile] (h : Beside I s t) {len pc : ℕ} {insn : Insn}
    (hgen : Generated len pc insn) (hplain : insn.Plain) (hreads : insn.reads ⊆ I)
    (stackPtr stackPtr' : U64) :
    Rel (fun x y => x.2 = y.2 ∧ Beside (insn.transfer I) x.1 y.1) (stepInsn stackPtr s insn)
      (@NVMirror.stepInsn release stackPtr' t insn) := by
  have h10 := hplain.reads
  cases hgen with
  | @alu64 op dst src hop hdst =>
    have hsrc := h.resolveSource (Set.union_subset_iff.1 hreads).1 fun hmem => h10 (Or.inl hmem)
    have hval : op ≠ .mov → s.regs dst = t.regs dst := fun hmov =>
      h.regs dst (hreads (Or.inr (by simp [hmov]))) hdst
    dsimp only [NVMirror.stepInsn]
    rw [hsrc, evalAlu64_congr hval, evalAlu64_of_ne_neg hop]
    exact Rel.bind_same _ fun v => (h.setReg dst v).advance
  | @alu32 op dst src hop hdst =>
    have hsrc := h.resolveSource (Set.union_subset_iff.1 hreads).1 fun hmem => h10 (Or.inl hmem)
    have hval : op ≠ .mov → (s.regs dst).setWidth 32 = (t.regs dst).setWidth 32 := fun hmov => by
      rw [h.regs dst (hreads (Or.inr (by simp [hmov]))) hdst]
    dsimp only [NVMirror.stepInsn]
    rw [hsrc, evalAlu32_congr hval, evalAlu32_of_ne_neg hop]
    exact Rel.bind_same _ fun v => (h.setReg dst _).advance
  | @jmpCond op dst src off q htarget hgt hlt =>
    have hsrc := h.resolveSource (Set.insert_subset_iff.1 hreads).2 fun hmem => h10 (Or.inr hmem)
    have hdst := h.regs dst (hreads (Or.inl rfl)) fun heq => h10 (Or.inl heq.symm)
    dsimp only [NVMirror.stepInsn]
    rw [hsrc, hdst]
    exact (h.weaken (by simp [Insn.transfer, Insn.writes])).branch _ off

end Beside

/-! ### Runs -/

/-- The states of two runs that do the same. -/
def InParallel (insns : List Insn) (s t : InterpreterState) : Prop :=
  ∃ I, Beside I s t ∧ Tracked insns s I

/-- Runs that start with the same `R1`. -/
theorem InParallel.start {insns : List Insn} {regs regs' : BpfReg → U64}
    (stack stack' : Fin stackSize → U8) (hr1 : regs BpfReg.r1 = regs' BpfReg.r1) :
    InParallel insns (.start regs stack) (.start regs' stack') := by
  refine ⟨entryInits, ⟨rfl, rfl, ?_⟩, Tracked.start regs stack⟩
  rintro r (rfl | rfl) h10
  · exact hr1
  · exact absurd rfl h10

section

variable [Profile] {raw : List RawInsn} {insns : List Insn} {s t : InterpreterState}
  (hgen : GeneratedProgram raw insns) (hplain : ∀ insn ∈ insns, insn.Plain)
  (hv : Verified insns)

include hgen hplain hv

/-- A step. -/
theorem InParallel.step (h : InParallel insns s t) (stackPtr stackPtr' : U64) :
    Rel (fun x y => InParallel insns x.1 y.1) (step stackPtr insns s)
      (@NVMirror.step release stackPtr' insns t) := by
  obtain ⟨I, hbeside, htrack⟩ := h
  have hsame : executed insns s = executed insns t := hbeside.executed
  cases he : executed insns s with
  | none =>
    rw [step_of_not_executed he, @step_of_not_executed release _ _ _ (hsame ▸ he)]
    exact Rel.ok ⟨I, hbeside, htrack⟩
  | some insn =>
    have hreads := (hv.checked_of_tracked htrack he).1
    obtain ⟨-, hinsn⟩ := executed_eq_some.1 he
    rw [step_of_executed he, @step_of_executed release _ _ _ _ (hsame ▸ he)]
    have hstep : Rel (fun x y => x.2 = y.2 ∧ Beside (insn.transfer I) x.1 y.1)
        (stepInsn stackPtr s insn) (@stepInsn release stackPtr' t insn) := by
      rcases hgen.generated_or_exit hinsn with ⟨hinsn', -⟩ | ⟨rfl, -⟩
      · exact hbeside.stepInsn hinsn' (hplain insn (List.mem_of_getElem? hinsn)) hreads _ _
      · have hsub : Insn.exit.transfer I ⊆ I := by simp [Insn.transfer, Insn.writes]
        exact Rel.ok ⟨rfl, hbeside.pc, rfl, (hbeside.weaken hsub).regs⟩
    refine hstep.imp fun x y hx _ hxy => ?_
    exact ⟨_, hxy.2, htrack.step hv he ((step_of_executed he).trans hx)⟩

/-- A run. -/
theorem InParallel.stepN (h : InParallel insns s t) (stackPtr stackPtr' : U64) (k : ℕ) :
    Rel (InParallel insns) (stepN stackPtr insns s k)
      (@NVMirror.stepN release stackPtr' insns t k) := by
  induction k with
  | zero => exact Rel.ok h
  | succ k ih =>
    refine ih.bind fun u v huv => ?_
    exact (huv.step hgen hplain hv stackPtr stackPtr').bind fun x y hxy => Rel.ok hxy

omit [Profile] hgen hplain in
/-- Where the next instruction is `Exit`, both runs have the same result. -/
theorem InParallel.result (h : InParallel insns s t) (hexit : executed insns s = some .exit) :
    s.regs BpfReg.r0 = t.regs BpfReg.r0 := by
  obtain ⟨I, hbeside, htrack⟩ := h
  have hreads := (hv.checked_of_tracked htrack hexit).1
  exact hbeside.regs _ (hreads rfl) (by decide)

omit [Profile] hplain in
/-- A program does not begin with its `Exit`, whose result would be uninitialised. -/
theorem GeneratedProgram.one_lt_length : 1 < insns.length := by
  by_contra hle
  have hpos := hgen.length_pos
  have hone : insns[0]? = some .exit := by
    have hlast := hgen.last
    rwa [show insns.length - 1 = 0 by omega] at hlast
  have hexec : executed insns .new = some .exit := executed_eq_some.2 ⟨rfl, hone⟩
  have hstart : Tracked insns .new entryInits := Tracked.start _ _
  have hreads := (hv.checked_of_tracked hstart hexec).1
  have hr0 : BpfReg.r0 ∈ entryInits := hreads rfl
  rcases hr0 with h | h
  · exact absurd h (by decide)
  · exact absurd h (by decide)

omit hplain in
/-- No step leads to the first instruction. -/
theorem GeneratedProgram.pc_ne_zero {stackPtr : U64} {regs : BpfReg → U64}
    {stack : Fin stackSize → U8} {k : ℕ}
    (hrun : NVMirror.stepN stackPtr insns (.start regs stack) (k + 1) = .ok s) : s.pc ≠ 0 := by
  have hlen := hgen.one_lt_length hv
  -- `pc` is not 0 once a step has been made, and the first instruction is executed
  have hstep : ∀ {u v : InterpreterState} {c : Bool}, (u.pc = 0 → u.halted = false) →
      NVMirror.step stackPtr insns u = .ok (v, c) → v.pc ≠ 0 := by
    intro u v c hgoing hstep hzero
    rcases step_cases hstep with ⟨hex, -, rfl⟩ | ⟨insn, hex, hcase⟩
    · have hget := List.getElem?_eq_getElem (show v.pc < insns.length by omega)
      rw [executed_eq_some.2 ⟨hgoing hzero, hget⟩] at hex
      cases hex
    · obtain ⟨-, hinsn⟩ := executed_eq_some.1 hex
      rcases hcase with ⟨-, hne, -, hkeeps⟩ | ⟨-, hexit, rfl⟩
      · rcases hgen.generated_or_exit hinsn with ⟨hinsn', hp⟩ | ⟨rfl, -⟩
        · have hlt := (hinsn'.lt_of_nextPc hp hkeeps.pc).1
          omega
        · exact hne rfl
      · rcases hgen.generated_or_exit hinsn with ⟨hinsn', hp⟩ | ⟨-, hp⟩
        · rcases hexit with rfl | rfl <;> cases hinsn'
        · dsimp only at hzero
          omega
  have hrest : ∀ {k : ℕ} {s : InterpreterState},
      NVMirror.stepN stackPtr insns (.start regs stack) k = .ok s → s.pc = 0 →
        s.halted = false := by
    intro k
    induction k with
    | zero =>
      intro s h0 _
      cases h0
      rfl
    | succ k ih =>
      intro s hsucc hzero
      obtain ⟨u, c, hu, hstep'⟩ := stepN_succ_eq_ok.1 hsucc
      exact absurd hzero (hstep (ih hu) hstep')
  obtain ⟨u, c, hu, hstep'⟩ := stepN_succ_eq_ok.1 hrun
  exact hstep (hrest hu) hstep'

end

end NVMirror
