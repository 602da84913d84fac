import NVMirror.JitEngine.Soundness
import NVMirror.JitRegalloc.Stretches

/-!
# Compiled code beside the interpreter

The nodes of one instruction take a machine from the state that belongs to a state of the
interpreter to the one that belongs to the next, for the instructions of which this is true: a
target says which they are (`Exact`), and a run may only execute such ones (`ExactRun`).

* `ExactRun.of_inStep`: registers that are not initialised do not matter.
* `Realizes`: what a target has to show about its prologue, about each instruction, about its
  epilogue and about the end of the code.  `Body` relates registers and stack of the interpreter to
  the machine.
* `Realizes.body`: while the interpreter runs, the machine comes to the nodes of the instruction it
  is at.  A node takes at most `M` steps, and a jump at least one.
* `Realizes.final`: where the interpreter exits, the machine returns.
-/

namespace NVMirror

open Rust Leaders

/-! ### Runs -/

/-- **Every instruction that the run executes is exact**, and no step leads back to the first one of
a program with a frame, where the prologue stands. -/
structure ExactRun (Exact : InterpreterState → Insn → Prop) (stackPtr : U64) (insns : List Insn)
    (frameSize : U16) (s₀ : InterpreterState) (k : ℕ) : Prop where
  exact : ∀ j < k, ∀ t insn, @stepN release stackPtr insns s₀ j = .ok t →
    executed insns t = some insn → Exact t insn
  once : 0 < frameSize → ∀ j < k, ∀ t, @stepN release stackPtr insns s₀ (j + 1) = .ok t → t.pc ≠ 0

theorem ExactRun.of_le {Exact : InterpreterState → Insn → Prop} {stackPtr : U64}
    {insns : List Insn} {frameSize : U16} {s₀ : InterpreterState} {j k : ℕ}
    (h : ExactRun Exact stackPtr insns frameSize s₀ k) (hjk : j ≤ k) :
    ExactRun Exact stackPtr insns frameSize s₀ j where
  exact i hi := h.exact i (hi.trans_le hjk)
  once hf i hi := h.once hf i (hi.trans_le hjk)

/-- No steps. -/
theorem ExactRun.zero (Exact : InterpreterState → Insn → Prop) (stackPtr : U64) (insns : List Insn)
    (frameSize : U16) (s₀ : InterpreterState) :
    ExactRun Exact stackPtr insns frameSize s₀ 0 where
  exact _ hj := absurd hj (Nat.not_lt_zero _)
  once _ _ hj := absurd hj (Nat.not_lt_zero _)

/-- One more step. -/
theorem ExactRun.step {Exact : InterpreterState → Insn → Prop} {stackPtr : U64}
    {insns : List Insn} {frameSize : U16} {s₀ t t' : InterpreterState} {k : ℕ} {insn : Insn}
    (h : ExactRun Exact stackPtr insns frameSize s₀ k)
    (ht : @stepN release stackPtr insns s₀ k = .ok t) (hex : executed insns t = some insn)
    (hexact : Exact t insn) (ht' : @stepN release stackPtr insns s₀ (k + 1) = .ok t')
    (hpc : t'.pc ≠ 0) : ExactRun Exact stackPtr insns frameSize s₀ (k + 1) where
  exact j hj u insn' hu hex' := by
    rcases Nat.lt_succ_iff_lt_or_eq.1 hj with hlt | rfl
    · exact h.exact j hlt u insn' hu hex'
    · cases ht.symm.trans hu
      cases hex.symm.trans hex'
      exact hexact
  once hf j hj u hu := by
    rcases Nat.lt_succ_iff_lt_or_eq.1 hj with hlt | rfl
    · exact h.once hf j hlt u hu
    · cases ht'.symm.trans hu
      exact hpc

/-! ### Registers that are not initialised -/

/-- Whether an instruction is exact depends on the registers it reads, and on nothing else. -/
def ReadsOnly (Exact : InterpreterState → Insn → Prop) : Prop :=
  ∀ {I : Set BpfReg} {s t : InterpreterState} {insn : Insn}, Agree I s t → insn.reads ⊆ I →
    Exact s insn → Exact t insn

section

variable {insns : List Insn} {stackPtr : U64} {s₀ t₀ : InterpreterState}

/-- Runs that start in step, after as many steps. -/
theorem exists_stepN_inStep [Profile] (hv : Verified insns) (hstep : InStep insns s₀ t₀) {k : ℕ}
    {t : InterpreterState} (ht : stepN stackPtr insns t₀ k = .ok t) :
    ∃ s, stepN stackPtr insns s₀ k = .ok s ∧ InStep insns s t := by
  have hrel := @InStep.stepN _ stackPtr insns hv _ _ hstep k
  rw [ht] at hrel
  cases hs : stepN stackPtr insns s₀ k with
  | error f =>
    rw [hs] at hrel
    exact hrel.elim
  | ok s =>
    rw [hs] at hrel
    exact ⟨s, rfl, hrel⟩

/-- Of runs that start in step both exit, with one result and one stack. -/
theorem InStep.exists_exited [Profile] (hv : Verified insns) (hstep : InStep insns s₀ t₀) {k : ℕ}
    {s : InterpreterState} (hs : NVMirror.stepN stackPtr insns s₀ k = .ok s)
    (hexit : Exited insns s) :
    ∃ t, NVMirror.stepN stackPtr insns t₀ k = .ok t ∧ s.regs BpfReg.r0 = t.regs BpfReg.r0 ∧
      s.stack = t.stack ∧ Exited insns t := by
  have hrel := @InStep.stepN _ stackPtr insns hv _ _ hstep k
  rw [hs] at hrel
  cases ht : NVMirror.stepN stackPtr insns t₀ k with
  | error f =>
    rw [ht] at hrel
    exact hrel.elim
  | ok t =>
    rw [ht] at hrel
    obtain ⟨I, hagree, -, hr0⟩ := hrel
    refine ⟨t, rfl, hagree.regs _ (hr0 hexit), hagree.stack, ?_⟩
    rwa [Exited, ← hagree.pc, ← hagree.halted]

/-- **Of runs that start in step both are exact.** -/
theorem ExactRun.of_inStep {Exact : InterpreterState → Insn → Prop} (hreads : ReadsOnly Exact)
    (hv : Verified insns) (hstep : InStep insns s₀ t₀) {frameSize : U16} {k : ℕ}
    (h : ExactRun Exact stackPtr insns frameSize s₀ k) :
    ExactRun Exact stackPtr insns frameSize t₀ k where
  exact j hj t insn ht hex := by
    obtain ⟨s, hs, I, hagree, htrack, -⟩ := @exists_stepN_inStep _ _ _ _ release hv hstep _ _ ht
    have hex' : executed insns s = some insn := hagree.executed.trans hex
    have hsub := (hv.checked_of_tracked htrack hex').1
    exact hreads hagree hsub (h.exact j hj s insn hs hex')
  once hf j hj t ht := by
    obtain ⟨s, hs, I, hagree, -⟩ := @exists_stepN_inStep _ _ _ _ release hv hstep _ _ ht
    rw [← hagree.pc]
    exact h.once hf j hj s hs

end

variable {σ C : Type} {mk : C → ℤ → σ} {f : σ → Rust Empty σ} {M : ℕ} {Stop : σ → Prop}
  {W : IrNode → List U32} {ir : IrProgram} {insns : List Insn} {regmap : RegMap}
  {flags : List Bool} {pcToBb : List BasicBlockId} {nodes : ℕ → List IrNode} {stackPtr : U64}
  {Exact : InterpreterState → Insn → Prop}
  {Start Body : (BpfReg → U64) → (Fin stackSize → U8) → C → Prop}
  {Final : (BpfReg → U64) → (Fin stackSize → U8) → σ → Prop}

/-! ### What a target shows -/

/-- The code of a program does what the interpreter does: the prologue leads from `Start` to `Body`,
the node of an exact instruction keeps `Body`, and those of an `Exit`, of which there are at most
two, lead to `Final`.  `Stop` says where the machine returns; it does not at a jump, nor at the end
of the code, where it stays. -/
structure Realizes (mk : C → ℤ → σ) (f : σ → Rust Empty σ) (M : ℕ) (Stop : σ → Prop)
    (W : IrNode → List U32) (ir : IrProgram) (insns : List Insn) (nodes : ℕ → List IrNode)
    (stackPtr : U64) (Exact : InterpreterState → Insn → Prop)
    (Start Body : (BpfReg → U64) → (Fin stackSize → U8) → C → Prop)
    (Final : (BpfReg → U64) → (Fin stackSize → U8) → σ → Prop) : Prop where
  stays : ∀ m, Stop m → f m = .ok m
  prologue : 0 < ir.frameSize → ir.code[0]? = some (.prologue ir.frameSize) →
    ∀ {regs stack c}, Start regs stack c →
      ∃ c', Body regs stack c' ∧ Reaches f 0 M (atNode mk W ir 0 c) (atNode mk W ir 1 c')
  node : ∀ {pc : ℕ} {insn : Insn} {node : IrNode}, insns[pc]? = some insn → insn.jumpOff = none →
    insn ≠ .exit → nodes pc = [node] → ∀ {j : ℕ}, ir.code[j]? = some node →
    ∀ {s s' : InterpreterState} {c : C}, Exact s insn →
      @stepInsn release stackPtr s insn = .ok (s', true) → Body s.regs s.stack c →
      ∃ c', Body s'.regs s'.stack c' ∧
        Reaches f 0 M (atNode mk W ir j c) (atNode mk W ir (j + 1) c')
  jump : ∀ {pc : ℕ} {insn : Insn} {node : IrNode} {off : I16} {t : BasicBlockId} {ip : ℕ},
    insns[pc]? = some insn → insn.jumpOff = some off → nodes pc = [node] →
    node.target = some t → ir.entry t = some ip → ∀ {j : ℕ}, ir.code[j]? = some node →
    ∀ {s : InterpreterState} {c : C}, Exact s insn → Body s.regs s.stack c →
      ¬ Stop (atNode mk W ir j c) ∧ ∃ c', Body s.regs s.stack c' ∧
        Reaches f 1 M (atNode mk W ir j c)
          (atNode mk W ir (if insn.taken s.regs then ip else j + 1) c')
  exit : ∀ {pc : ℕ}, insns[pc]? = some .exit → ∀ {regs stack c}, Body regs stack c →
    ∃ m, Stop m ∧ Final regs stack m ∧
      Reaches f 0 (2 * M) (atNode mk W ir (nodePos ir.frameSize nodes pc) c) m
  behind : ∀ {j : ℕ}, ir.code[j]? = none → ∀ c,
    ¬ Stop (atNode mk W ir j c) ∧ f (atNode mk W ir j c) = .ok (atNode mk W ir j c)

namespace Realizes

variable (hreal : Realizes mk f M Stop W ir insns nodes stackPtr Exact Start Body Final)
  (h : Lowering insns regmap flags pcToBb nodes ir) (hacc : Accepted insns)

include hreal h hacc

/-- The machine at the first instruction. -/
theorem first {regs : BpfReg → U64} {stack : Fin stackSize → U8} {c₀ : C}
    (hstart : if 0 < ir.frameSize then Start regs stack c₀ else Body regs stack c₀) :
    ∃ c, Body regs stack c ∧
      Reaches f 0 M (mk c₀ 0) (atNode mk W ir (nodePos ir.frameSize nodes 0) c) := by
  split_ifs at hstart with hf
  · obtain ⟨hj, hone⟩ := h.code_zero hacc.ne_nil hf
    rw [hone]
    exact hreal.prologue hf hj hstart
  · refine ⟨c₀, hstart, ?_⟩
    rw [nodePos_zero, prologueOf, if_neg hf]
    exact Reaches.refl M _

/-- **One instruction.**  The machine makes a step if the interpreter does not go on to the next
instruction. -/
theorem insn {s s' : InterpreterState} {insn : Insn} {c : C} (hget : insns[s.pc]? = some insn)
    (hexit : insn ≠ .exit) (hexact : Exact s insn) (hkeeps : Keeps insn s s')
    (hstep : @stepInsn release stackPtr s insn = .ok (s', true))
    (honce : 0 < ir.frameSize → s'.pc ≠ 0) (hbody : Body s.regs s.stack c) :
    ∃ c' l, Body s'.regs s'.stack c' ∧ s.pc + 1 ≤ l * insns.length + s'.pc ∧
      Reaches f l M (atNode mk W ir (nodePos ir.frameSize nodes s.pc) c)
        (atNode mk W ir (nodePos ir.frameSize nodes s'.pc) c') := by
  obtain ⟨node, hj, -, -, hsucc, hns, -⟩ := h.code_single hacc hget hexit
  have hlt := (List.getElem?_eq_some_iff.1 hget).1
  cases hoff : insn.jumpOff with
  | none =>
    obtain ⟨c', hbody', hreach⟩ := hreal.node hget hoff hexit hns hj hexact hstep hbody
    have hpc : s'.pc = s.pc + 1 := by
      rcases hkeeps.pc with ⟨-, hpc⟩ | ⟨-, off, hoff', -⟩
      · exact hpc
      · rw [hoff] at hoff'
        cases hoff'
    exact ⟨c', 0, hbody', by omega, by rwa [hpc, hsucc]⟩
  | some off =>
    -- a jump changes `pc` only
    obtain ⟨q, -, htarget, hq⟩ := hacc.jumpPc_eq hget hoff
    obtain ⟨node', t, ip, hns', hnode, hentry, -, hzero, hpos⟩ :=
      h.next_jump hacc hget hoff htarget
    rw [hns] at hns'
    cases hns'
    obtain ⟨-, c', hbody', hreach⟩ := hreal.jump hget hoff hns hnode hentry hj hexact hbody
    have hcount : s.pc + 1 ≤ 1 * insns.length + s'.pc := by omega
    rw [@stepInsn_of_jump release _ _ _ _ hoff] at hstep
    cases htaken : insn.taken s.regs with
    | true =>
      rw [htaken, branch, if_pos rfl, hq] at hstep
      cases hstep
      rw [htaken, if_pos rfl] at hreach
      refine ⟨c', 1, hbody', hcount, ?_⟩
      by_cases hne : q = 0
      · subst hne
        have hf : ¬ 0 < ir.frameSize := fun hf => honce hf rfl
        rw [hzero rfl] at hreach
        rw [nodePos_zero, prologueOf, if_neg hf]
        exact hreach
      · rw [hpos hne] at hreach
        exact hreach
    | false =>
      rw [htaken, branch, if_neg Bool.false_ne_true] at hstep
      obtain ⟨rfl, -⟩ := advance_eq_ok hstep
      rw [htaken, if_neg Bool.false_ne_true, ← hsucc] at hreach
      exact ⟨c', 1, hbody', hcount, hreach⟩

variable {regs : BpfReg → U64} {stack : Fin stackSize → U8} {c₀ : C}
  (hstart : if 0 < ir.frameSize then Start regs stack c₀ else Body regs stack c₀)

include hstart

section

variable {k : ℕ} {s : InterpreterState}
  (hrun : @stepN release stackPtr insns (.start regs stack) k = .ok s)
  (hexact : ExactRun Exact stackPtr insns ir.frameSize (.start regs stack) k)

include hrun hexact

/-- **The machine beside a run**: it comes to the node of the instruction the interpreter is at.
The more steps the interpreter has made, the more has the machine. -/
theorem body (hgoing : s.halted = false) : ∃ c l, Body s.regs s.stack c ∧
    (s.pc < insns.length → k ≤ l * insns.length + s.pc) ∧
    Reaches f l (M * (k + 1)) (mk c₀ 0) (atNode mk W ir (nodePos ir.frameSize nodes s.pc) c) := by
  induction k generalizing s with
  | zero =>
    cases hrun
    rw [Nat.mul_one]
    obtain ⟨c, hbody, hreach⟩ := hreal.first h hacc hstart
    exact ⟨c, 0, hbody, fun _ => Nat.zero_le _, hreach⟩
  | succ k ih =>
    obtain ⟨t, cont, ht, hstep⟩ := (@stepN_succ_eq_ok release _ _ _ _ _).1 hrun
    have hexact' := hexact.of_le (Nat.le_succ k)
    rcases @step_cases release _ _ _ _ _ hstep with ⟨hnone, -, rfl⟩ | ⟨insn, hex, hcase⟩
    · obtain ⟨c, l, hbody, -, hreach⟩ := ih ht hexact' hgoing
      have hmore : M * (k + 1) ≤ M * (k + 1 + 1) := Nat.mul_le_mul_left M (Nat.le_succ _)
      refine ⟨c, l, hbody, fun hlt => ?_, hreach.mono le_rfl hmore⟩
      have hex := executed_eq_some.2 ⟨hgoing, List.getElem?_eq_getElem hlt⟩
      rw [hnone] at hex
      cases hex
    · obtain ⟨hhalt, hget⟩ := executed_eq_some.1 hex
      have hlt := (List.getElem?_eq_some_iff.1 hget).1
      rcases hcase with ⟨rfl, hexit, -, hkeeps⟩ | ⟨-, -, rfl⟩
      · obtain ⟨c, l, hbody, hcount, hreach⟩ := ih ht hexact' hhalt
        have hinsn := hexact.exact k (Nat.lt_succ_self k) t insn ht hex
        rw [@step_of_executed release _ _ _ _ hex] at hstep
        obtain ⟨c', l', hbody', hcount', hreach'⟩ := hreal.insn h hacc hget hexit hinsn hkeeps hstep
          (fun hf => hexact.once hf k (Nat.lt_succ_self k) s hrun) hbody
        refine ⟨c', l + l', hbody', fun _ => ?_, hreach.trans hreach'⟩
        have hbefore := hcount hlt
        rw [Nat.add_mul]
        omega
      · cases hgoing

/-- **Where the interpreter exits**, the machine returns. -/
theorem final (hexit : Exited insns s) :
    ∃ m, Stop m ∧ Final s.regs s.stack m ∧ Reaches f 0 (M * (k + 2)) (mk c₀ 0) m := by
  induction k generalizing s with
  | zero =>
    cases hrun
    cases hexit.1
  | succ k ih =>
    obtain ⟨t, cont, ht, hstep⟩ := (@stepN_succ_eq_ok release _ _ _ _ _).1 hrun
    have hexact' := hexact.of_le (Nat.le_succ k)
    rcases @step_cases release _ _ _ _ _ hstep with ⟨-, -, rfl⟩ | ⟨insn, hex, hcase⟩
    · obtain ⟨m, hstop, hfinal, hreach⟩ := ih ht hexact' hexit
      exact ⟨m, hstop, hfinal, hreach.mono le_rfl (Nat.mul_le_mul_left M (Nat.le_succ _))⟩
    · obtain ⟨hhalt, hget⟩ := executed_eq_some.1 hex
      rcases hcase with ⟨-, -, -, hkeeps⟩ | ⟨-, -, rfl⟩
      · rw [Exited, hkeeps.halted, hhalt] at hexit
        cases hexit.1
      · -- the step that halts executes the `Exit`
        obtain ⟨c, l, hbody, -, hreach⟩ := hreal.body h hacc hstart ht hexact' hhalt
        obtain ⟨m, hstop, hfinal, hreach'⟩ := hreal.exit hexit.2 hbody
        refine ⟨m, hstop, hfinal, (hreach.trans hreach').mono (Nat.zero_le _) (le_of_eq ?_)⟩
        ring

end

end Realizes

end NVMirror
