import NVMirror.EbpfCore.Flow
import NVMirror.JitEngine.Interpreter

/-!
# What a step of the interpreter can do

`step_cases` lists the outcomes of a step once and for all: nothing (the program has stopped),
halt, or one instruction after which `pc` is the next index or the jump target, and only the
registers the instruction writes have changed.  `stepN` lemmas turn facts about one step into
facts about runs.
-/

namespace NVMirror

open Rust

/-! ### Branches -/

/-- Is the jump taken? -/
def Insn.taken (regs : BpfReg → U64) : Insn → Bool
  | .ja _ => true
  | .jmpCond op dst src _ => evalJmp op (regs dst) (resolveSource regs src)
  | .jmpCond32 op dst src _ =>
    evalJmp op (((regs dst).setWidth 32).setWidth 64)
      (((resolveSource regs src).setWidth 32).setWidth 64)
  | _ => false

/-- What is not taken falls through, unless it exits. -/
theorem Insn.fallsThrough_of_not_taken {insn : Insn} {regs : BpfReg → U64} (hne : insn ≠ .exit)
    (h : insn.taken regs = false) : insn.fallsThrough = true := by
  cases insn with
  | ja => cases h
  | exit => exact absurd rfl hne
  | _ => rfl

/-- A jump that can be left untaken is conditional. -/
theorem Insn.isCondJump_of_not_taken {insn : Insn} {regs : BpfReg → U64} {off : I16}
    (hoff : insn.jumpOff = some off) (h : insn.taken regs = false) : insn.isCondJump = true := by
  cases insn with
  | jmpCond | jmpCond32 => rfl
  | ja => cases h
  | _ => cases hoff

/-! ### Outcomes of one step -/

theorem advance_eq_ok {s s' : InterpreterState} {c : Bool} (h : advance s = .ok (s', c)) :
    s' = { s with pc := s.pc + 1 } ∧ c = true := by
  unfold advance at h
  obtain ⟨pc, hpc, h⟩ := bind_eq_ok.1 h
  obtain ⟨-, rfl⟩ := usizeAdd_eq_ok.1 hpc
  cases h
  exact ⟨rfl, rfl⟩

theorem advance_of_lt {s : InterpreterState} (h : s.pc + 1 < 2 ^ 64) :
    advance s = .ok ({ s with pc := s.pc + 1 }, true) := by
  unfold advance
  rw [usizeAdd_of_lt h]
  rfl

/-- The next `pc`: the jump target if the jump is taken, else the next index. -/
def NextPc (insn : Insn) (regs : BpfReg → U64) (pc pc' : ℕ) : Prop :=
  insn.taken regs = false ∧ pc' = pc + 1 ∨
    insn.taken regs = true ∧ ∃ off, insn.jumpOff = some off ∧
      jumpPc (ε := Empty) pc off = .ok pc'

/-- What executing an instruction keeps: everything it does not write. -/
structure Keeps (insn : Insn) (s s' : InterpreterState) : Prop where
  halted : s'.halted = s.halted
  regs : ∀ r ∉ insn.writes, s'.regs r = s.regs r
  pc : NextPc insn s.regs s.pc s'.pc

theorem Keeps.of_advance {insn : Insn} {s t s' : InterpreterState} {c : Bool}
    (h : advance t = .ok (s', c)) (hhalt : t.halted = s.halted) (hpc : t.pc = s.pc)
    (hregs : ∀ r ∉ insn.writes, t.regs r = s.regs r) (htaken : insn.taken s.regs = false) :
    c = true ∧ Keeps insn s s' := by
  obtain ⟨rfl, rfl⟩ := advance_eq_ok h
  exact ⟨rfl, hhalt, hregs, Or.inl ⟨htaken, by rw [← hpc]⟩⟩

theorem Keeps.of_branch {insn : Insn} {s s' : InterpreterState} {off : I16} {taken c : Bool}
    (h : branch s taken off = .ok (s', c)) (hoff : insn.jumpOff = some off)
    (htaken : insn.taken s.regs = taken) : c = true ∧ Keeps insn s s' := by
  unfold branch at h
  cases taken with
  | false => exact Keeps.of_advance h rfl rfl (fun _ _ => rfl) htaken
  | true =>
    rw [if_pos rfl] at h
    obtain ⟨pc, hpc, h⟩ := bind_eq_ok.1 h
    cases h
    exact ⟨rfl, rfl, fun _ _ => rfl, Or.inr ⟨htaken, off, hoff, hpc⟩⟩

theorem InterpreterState.setReg_regs_of_notMem {s : InterpreterState} {r dst : BpfReg} {v : U64}
    (h : r ∉ ({dst} : Set BpfReg)) : (s.setReg dst v).regs r = s.regs r := by
  have hne : r ≠ dst := h
  exact Function.update_of_ne hne v s.regs

variable [Profile] {stackPtr : U64} {insns : List Insn}

/-- **Outcomes of one instruction.** -/
theorem stepInsn_cases {insn : Insn} {s s' : InterpreterState} {c : Bool}
    (h : stepInsn stackPtr s insn = .ok (s', c)) :
    (c = true ∧ insn ≠ .exit ∧ insn ≠ .tailCall ∧ Keeps insn s s') ∨
    (c = false ∧ (insn = .exit ∨ insn = .tailCall) ∧ s' = { s with halted := true }) := by
  -- instructions that assign a register, or the stack, and advance
  have hreg : ∀ {dst v}, advance (s.setReg dst v) = .ok (s', c) → insn.writes = {dst} →
      insn.taken s.regs = false → c = true ∧ Keeps insn s s' := by
    intro dst v h hw htaken
    refine Keeps.of_advance h rfl rfl (fun r hr => ?_) htaken
    exact InterpreterState.setReg_regs_of_notMem (hw ▸ hr)
  have hstack : ∀ stack, advance { s with stack } = .ok (s', c) →
      insn.taken s.regs = false → c = true ∧ Keeps insn s s' := by
    intro stack h htaken
    exact Keeps.of_advance h rfl rfl (fun _ _ => rfl) htaken
  have hbranch : ∀ {off taken}, branch s taken off = .ok (s', c) → insn.jumpOff = some off →
      insn.taken s.regs = taken → c = true ∧ Keeps insn s s' :=
    fun h hoff htaken => Keeps.of_branch h hoff htaken
  cases insn with
  | alu64 op dst src | alu32 op dst src =>
    obtain ⟨v, -, h⟩ := bind_eq_ok.1 h
    obtain ⟨hc, hk⟩ := hreg h rfl rfl
    exact Or.inl ⟨hc, by simp, by simp, hk⟩
  | loadImm64 _ _ | endian _ _ _ | call _ =>
    obtain ⟨hc, hk⟩ := hreg h rfl rfl
    exact Or.inl ⟨hc, by simp, by simp, hk⟩
  | load width dst src off =>
    obtain ⟨rel, -, h⟩ := bind_eq_ok.1 h
    obtain ⟨v, -, h⟩ := bind_eq_ok.1 h
    obtain ⟨hc, hk⟩ := hreg h rfl rfl
    exact Or.inl ⟨hc, by simp, by simp, hk⟩
  | storeReg _ _ _ _ | storeImm _ _ _ _ =>
    obtain ⟨rel, -, h⟩ := bind_eq_ok.1 h
    obtain ⟨stack, -, h⟩ := bind_eq_ok.1 h
    obtain ⟨hc, hk⟩ := hstack stack h rfl
    exact Or.inl ⟨hc, by simp, by simp, hk⟩
  | atomic width op dst src off =>
    obtain ⟨hc, hk⟩ := hstack s.stack h rfl
    exact Or.inl ⟨hc, by simp, by simp, hk⟩
  | ja off | jmpCond op dst src off | jmpCond32 op dst src off =>
    obtain ⟨hc, hk⟩ := hbranch h rfl rfl
    exact Or.inl ⟨hc, by simp, by simp, hk⟩
  | exit =>
    cases h
    exact Or.inr ⟨rfl, Or.inl rfl, rfl⟩
  | tailCall =>
    cases h
    exact Or.inr ⟨rfl, Or.inr rfl, rfl⟩

/-- The instruction a step executes, if the program has not stopped. -/
def executed (insns : List Insn) (s : InterpreterState) : Option Insn :=
  if s.halted then none else insns[s.pc]?

omit [Profile] in
theorem executed_eq_some {s : InterpreterState} {insn : Insn} :
    executed insns s = some insn ↔ s.halted = false ∧ insns[s.pc]? = some insn := by
  unfold executed
  split_ifs with h <;> simp [h]

theorem step_of_executed {s : InterpreterState} {insn : Insn}
    (h : executed insns s = some insn) : step stackPtr insns s = stepInsn stackPtr s insn := by
  obtain ⟨hhalt, hget⟩ := executed_eq_some.1 h
  have hlt := (List.getElem?_eq_some_iff.1 hget).1
  unfold step
  rw [if_neg (by simp [hhalt]; omega), index_of_getElem? hget, ok_bind]

theorem step_of_not_executed {s : InterpreterState} (h : executed insns s = none) :
    step stackPtr insns s = .ok (s, false) := by
  unfold step
  refine if_pos ?_
  unfold executed at h
  split_ifs at h with hh
  · exact Or.inl hh
  · exact Or.inr (List.getElem?_eq_none_iff.1 h)

/-- **Outcomes of one step.** -/
theorem step_cases {s s' : InterpreterState} {c : Bool}
    (h : step stackPtr insns s = .ok (s', c)) :
    (executed insns s = none ∧ c = false ∧ s' = s) ∨ ∃ insn, executed insns s = some insn ∧
      ((c = true ∧ insn ≠ .exit ∧ insn ≠ .tailCall ∧ Keeps insn s s') ∨
        (c = false ∧ (insn = .exit ∨ insn = .tailCall) ∧ s' = { s with halted := true })) := by
  cases he : executed insns s with
  | none =>
    rw [step_of_not_executed he] at h
    cases h
    exact Or.inl ⟨rfl, rfl, rfl⟩
  | some insn =>
    rw [step_of_executed he] at h
    exact Or.inr ⟨insn, rfl, stepInsn_cases h⟩

/-! ### Runs -/

theorem stepState_eq_ok {s t : InterpreterState} :
    stepState stackPtr insns s = .ok t ↔ ∃ c, step stackPtr insns s = .ok (t, c) := by
  unfold stepState
  rw [bind_eq_ok]
  constructor
  · rintro ⟨⟨u, c⟩, hu, h⟩
    cases h
    exact ⟨c, hu⟩
  · rintro ⟨c, h⟩
    exact ⟨(t, c), h, rfl⟩

theorem stepState_of_not_executed {s : InterpreterState} (h : executed insns s = none) :
    stepState stackPtr insns s = .ok s :=
  stepState_eq_ok.2 ⟨false, step_of_not_executed h⟩

theorem stepState_of_executed {s : InterpreterState} {insn : Insn}
    (h : executed insns s = some insn) :
    stepState stackPtr insns s = (stepInsn stackPtr s insn).map Prod.fst := by
  unfold stepState
  rw [step_of_executed h]
  cases stepInsn stackPtr s insn <;> rfl

/-- Jumps. -/
theorem stepInsn_of_jump {s : InterpreterState} {insn : Insn} {off : I16}
    (h : insn.jumpOff = some off) :
    stepInsn stackPtr s insn = branch s (insn.taken s.regs) off := by
  cases insn with
  | ja | jmpCond | jmpCond32 => cases h; rfl
  | _ => cases h

theorem stepN_succ_eq_ok {s t' : InterpreterState} {k : ℕ} :
    stepN stackPtr insns s (k + 1) = .ok t' ↔
      ∃ t c, stepN stackPtr insns s k = .ok t ∧ step stackPtr insns t = .ok (t', c) := by
  simp only [steps_succ_eq_ok, stepState_eq_ok, exists_and_left]

/-- A stopped state stays as it is. -/
theorem stepN_of_not_executed {s t : InterpreterState} {j : ℕ}
    (h : stepN stackPtr insns s j = .ok t) (hstop : executed insns t = none) (d : ℕ) :
    stepN stackPtr insns s (j + d) = .ok t :=
  steps_of_stopped h (stepState_of_not_executed hstop) d

omit [Profile] in
/-- The state at the start of a run. -/
def InterpreterState.start (regs : BpfReg → U64) (stack : Fin stackSize → U8) :
    InterpreterState where
  regs := regs
  stack := stack
  pc := 0
  halted := false

omit [Profile] in
/-- The run has executed an `Exit`. -/
def Exited (insns : List Insn) (s : InterpreterState) : Prop :=
  s.halted = true ∧ insns[s.pc]? = some .exit

end NVMirror
