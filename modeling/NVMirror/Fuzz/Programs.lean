import NVMirror.EbpfCore.Convergence
import NVMirror.Fuzz.Templates
import NVMirror.JitEngine.Totality

/-!
# Generated programs are valid and terminate

* `decodeProgram_of_decodes`: slots that decode one by one.
* `GeneratedProgram.verifyProgram_meets`: control flow falls through or jumps forward, so every
  instruction is reachable and the analysis converges; only reads of registers remain to be
  checked.
* `GeneratedProgram.run_exits`: the interpreter moves forward up to the `Exit`.
* `generateProgram_valid`: the programs of the generator.
-/

namespace NVMirror

open Rust Leaders Relation

/-! ### Decoding -/

/-- Slots that decode one by one. -/
theorem decodeProgram_of_decodes {raw : List RawInsn} {insns : List Insn}
    (h : List.Forall₂ RawInsn.DecodesTo raw insns) (hne : raw ≠ []) (hlen : raw.length ≤ maxInsns) :
    decodeProgram raw = .ok insns := by
  have hlength := h.length_eq
  have hloop : ∀ fuel pc, pc ≤ raw.length → raw.length ≤ pc + fuel →
      decodeLoop raw fuel pc (insns.take pc) = .ok insns := by
    intro fuel
    induction fuel with
    | zero =>
      intro pc hpc hfuel
      rw [decodeLoop, if_neg (by omega), List.take_of_length_le (by omega)]
      rfl
    | succ fuel ih =>
      intro pc hpc hfuel
      rw [decodeLoop]
      split_ifs with hlt
      · have hget := List.getElem?_eq_getElem hlt
        have hinsn := List.getElem?_eq_getElem (hlength ▸ hlt)
        have hdec := (List.forall₂_iff_get.1 h).2 pc hlt (hlength ▸ hlt)
        have hnext : insns.take (pc + 1) = insns.take pc ++ [insns[pc]] := by
          rw [List.take_add_one, hinsn, Option.toList_some]
        unfold maxInsns at hlen
        rw [hdec raw pc hget, ok_bind]
        dsimp only
        rw [usizeAdd_of_lt (by omega), ok_bind]
        exact hnext ▸ ih (pc + 1) hlt (by omega)
      · rw [List.take_of_length_le (by omega)]
        rfl
  rw [decodeProgram, if_neg hne, if_neg (by omega)]
  exact hloop raw.length 0 (by omega) (by omega)

/-! ### The verifier -/

theorem Generated.fallsThrough {len pc : ℕ} {insn : Insn} (h : Generated len pc insn) :
    insn.fallsThrough = true := by
  cases h <;> rfl

theorem Generated.target {len pc : ℕ} {insn : Insn} {off : I16} (h : Generated len pc insn)
    (hoff : insn.jumpOff = some off) : ∃ q, IsTarget pc off q ∧ pc < q ∧ q < len := by
  cases h with
  | alu64 | alu32 => cases hoff
  | jmpCond htarget hgt hlt =>
    cases hoff
    exact ⟨_, htarget, hgt, hlt⟩

/-- Without a write to `R10` and a memory access, only reads of registers are checked. -/
theorem Insn.Faulty.exists_uninit {insn : Insn} {pc : ℕ} {I : Set BpfReg} {f : Fault VerifyError}
    (h : insn.Faulty pc I f) (hwrites : BpfReg.r10 ∉ insn.writes) (hmem : insn.memAccess = none) :
    ∃ pc reg, f = .err (.uninitializedRegRead pc reg) := by
  cases f with
  | panic => exact h.elim
  | err e =>
    cases e with
    | uninitializedRegRead q reg => exact ⟨q, reg, rfl⟩
    | writeToR10 q => exact absurd h.2 hwrites
    | stackOutOfBounds q off =>
      obtain ⟨-, width, hacc, -⟩ := h
      rw [hmem] at hacc
      cases hacc
    | _ => exact h.elim

theorem Generated.notMem_writes {len pc : ℕ} {insn : Insn} (h : Generated len pc insn) :
    BpfReg.r10 ∉ insn.writes := by
  cases h with
  | alu64 hop hdst | alu32 hop hdst => exact fun hw => hdst hw.symm
  | jmpCond => exact fun hw => hw

theorem Generated.memAccess {len pc : ℕ} {insn : Insn} (h : Generated len pc insn) :
    insn.memAccess = none := by
  cases h <;> rfl

theorem Generated.noOverflow [Profile] {len pc : ℕ} {insn : Insn} (h : Generated len pc insn)
    (stackPtr : U64) (regs : BpfReg → U64) : insn.NoOverflow stackPtr regs := by
  cases h with
  | alu64 hop hdst | alu32 hop hdst => exact fun he => absurd he hop
  | jmpCond => trivial

/-- An instruction that falls through or jumps forward leads forward. -/
theorem Generated.lt_of_nextPc {len pc pc' : ℕ} {insn : Insn} {regs : BpfReg → U64}
    (h : Generated len pc insn) (hp : pc + 1 < len) (hnext : NextPc insn regs pc pc') :
    pc < pc' ∧ pc' < len := by
  rcases hnext with ⟨-, rfl⟩ | ⟨-, off, hoff, hjump⟩
  · exact ⟨Nat.lt_succ_self pc, hp⟩
  · obtain ⟨q, htarget, hgt, hlt⟩ := h.target hoff
    obtain rfl := jumpPc_of_isTarget hjump htarget
    exact ⟨hgt, hlt⟩

namespace GeneratedProgram

variable {raw : List RawInsn} {insns : List Insn}

theorem length_pos (h : GeneratedProgram raw insns) : 0 < insns.length := by
  have := (List.getElem?_eq_some_iff.1 h.last).1
  omega

/-- Every instruction before the `Exit` is generated. -/
theorem generated_or_exit (h : GeneratedProgram raw insns) {pc : ℕ} {insn : Insn}
    (hinsn : insns[pc]? = some insn) : Generated insns.length pc insn ∧ pc + 1 < insns.length ∨
      insn = .exit ∧ pc + 1 = insns.length := by
  have hlt := (List.getElem?_eq_some_iff.1 hinsn).1
  by_cases hp : pc + 1 < insns.length
  · exact Or.inl ⟨h.body pc insn hinsn hp, hp⟩
  · obtain rfl : pc = insns.length - 1 := by omega
    rw [h.last] at hinsn
    cases hinsn
    exact Or.inr ⟨rfl, by omega⟩

theorem targetsInBounds (h : GeneratedProgram raw insns) : TargetsInBounds insns := by
  intro pc insn off hinsn hoff
  rcases h.generated_or_exit hinsn with ⟨hgen, -⟩ | ⟨rfl, -⟩
  · obtain ⟨q, htarget, -, hlt⟩ := hgen.target hoff
    exact ⟨q, hlt, htarget⟩
  · cases hoff

theorem edge_succ (h : GeneratedProgram raw insns) {pc : ℕ} (hp : pc + 1 < insns.length) :
    Edge insns pc (pc + 1) := by
  have hinsn := List.getElem?_eq_getElem (Nat.lt_of_succ_lt hp)
  exact ⟨hp, _, hinsn, Or.inl ⟨(h.body pc _ hinsn hp).fallsThrough, rfl⟩⟩

theorem reach (h : GeneratedProgram raw insns) {pc : ℕ} (hp : pc < insns.length) :
    Reach insns 0 pc := by
  induction pc with
  | zero => exact ReflTransGen.refl
  | succ pc ih => exact (ih (by omega)).tail (h.edge_succ hp)

theorem backwardJumps_eq_zero (h : GeneratedProgram raw insns) : backwardJumps insns = 0 := by
  refine List.countP_eq_zero.2 fun insn hmem hback => ?_
  obtain ⟨pc, hinsn⟩ := List.getElem?_of_mem hmem
  cases hoff : insn.jumpOff with
  | none => simp [Insn.isBackwardJump, hoff] at hback
  | some off =>
    have hneg : off.toInt < 0 := by simpa [Insn.isBackwardJump, hoff] using hback
    rcases h.generated_or_exit hinsn with ⟨hgen, -⟩ | ⟨rfl, -⟩
    · obtain ⟨q, htarget, hgt, -⟩ := hgen.target hoff
      unfold IsTarget at htarget
      omega
    · cases hoff

section Blocks

variable {flags : List Bool} {bbs : List BasicBlock}

/-- Only the last block has no successor. -/
theorem terminated (h : GeneratedProgram raw insns) (hcfg : Cfg insns flags bbs)
    (hmarks : Marks Insn.endsBlock insns flags) {b : BasicBlock} (hb : b ∈ bbs) :
    Terminated insns b := by
  intro hsucc
  obtain ⟨hlt, hle⟩ := hcfg.shape hmarks b hb
  by_cases hlast : b.stop = insns.length
  · rw [hlast]
    exact Or.inl h.last
  · -- the last instruction of the block falls through
    obtain ⟨i, hi⟩ := List.getElem?_of_mem hb
    have hedge : Edge insns (b.stop - 1) (b.stop - 1 + 1) := h.edge_succ (by omega)
    have hmem := ((hcfg.isBlock i b hi).mem_successors _).2 ⟨_, hedge, rfl⟩
    rw [hsucc] at hmem
    cases hmem

/-- The last block ends in `Exit`. -/
theorem exists_exit_block (h : GeneratedProgram raw insns) (hcfg : Cfg insns flags bbs)
    (hmarks : Marks Insn.endsBlock insns flags) : ∃ b ∈ bbs, insns[b.stop - 1]? = some .exit := by
  have hpos := h.length_pos
  obtain ⟨i, b, hb, hle, hlt⟩ := hcfg.exists_block hmarks
    (show insns.length - 1 < insns.length by omega)
  have hmem := List.mem_of_getElem? hb
  obtain ⟨-, hstop⟩ := hcfg.shape hmarks b hmem
  refine ⟨b, hmem, ?_⟩
  rw [show b.stop - 1 = insns.length - 1 by omega]
  exact h.last

end Blocks

/-- **The verifier** accepts a generated program, or finds a read of a register that may be
uninitialised. -/
theorem verifyProgram_meets (h : GeneratedProgram raw insns) (hlen : insns.length ≤ maxInsns) :
    (∃ n, verifyProgram insns = .ok n) ∨
      ∃ pc reg, verifyProgram insns = fail (.uninitializedRegRead pc reg) := by
  have hP : FlowClosed insns fun _ _ => True := ⟨trivial, fun _ _ _ _ _ => trivial,
    fun _ _ _ _ _ => trivial⟩
  have hmeets : Meets (verifyProgram insns) (fun _ => True) fun f =>
      (∃ pc reg, f = .err (.uninitializedRegRead pc reg)) ∨
        f = .err (.backEdgeBudgetExceeded 0) := by
    refine (verifyProgram_phases hP ?_ ?_ ?_ ?_ (Or.inr rfl) ?_ ?_ ?_).imp fun _ _ => trivial
    · rintro rfl
      exact absurd h.length_pos (by simp)
    · intro hsize
      unfold Oversized at hsize
      unfold maxInsns at hlen
      omega
    · intro pc insn off hinsn hoff t ht hout
      obtain ⟨q, hq, htarget⟩ := h.targetsInBounds pc insn off hinsn hoff
      unfold IsTarget at htarget
      omega
    · intro pc insn I f hinsn _ hf
      rcases h.generated_or_exit hinsn with ⟨hgen, -⟩ | ⟨rfl, -⟩
      · exact Or.inl (hf.exists_uninit hgen.notMem_writes hgen.memAccess)
      · exact Or.inl (hf.exists_uninit (fun hw => hw) rfl)
    · intro flags bbs hconv b hb hr
      obtain ⟨i, hi⟩ := List.getElem?_of_mem hb
      obtain ⟨hlt, hle⟩ := hconv.shape hconv.marks b hb
      rw [hconv.reachable_of_reach (h.reach (by omega)) hi le_rfl hlt] at hr
      cases hr
    · intro flags bbs hconv b hb hno
      exact absurd (h.terminated hconv.toCfg hconv.marks hb) hno
    · intro flags bbs hconv hno
      obtain ⟨b, hb, hexit⟩ := h.exists_exit_block hconv.toCfg hconv.marks
      exact absurd hexit (hno b hb)
  cases hver : verifyProgram insns with
  | ok n => exact Or.inl ⟨n, rfl⟩
  | error f =>
    rw [hver] at hmeets
    rcases hmeets with ⟨pc, reg, rfl⟩ | rfl
    · exact Or.inr ⟨pc, reg, rfl⟩
    · have hback : backwardJumps insns ≤ 15 := by
        rw [h.backwardJumps_eq_zero]
        omega
      exact absurd hver (verifyProgram_ne_budget hback 0)

/-! ### The interpreter -/

section Run

variable [Profile] {stackPtr : U64}

/-- Before the `Exit` a step moves forward. -/
theorem step_forward (h : GeneratedProgram raw insns) (hlen : insns.length < 2 ^ 62)
    {s : InterpreterState} (hhalt : s.halted = false) (hp : s.pc + 1 < insns.length) :
    ∃ t, step stackPtr insns s = .ok (t, true) ∧ t.halted = false ∧ s.pc < t.pc ∧
      t.pc < insns.length := by
  have hinsn := List.getElem?_eq_getElem (Nat.lt_of_succ_lt hp)
  have hgen := h.body _ _ hinsn hp
  have hexec : executed insns s = some insns[s.pc] := executed_eq_some.2 ⟨hhalt, hinsn⟩
  have htarget : ∀ off, insns[s.pc].jumpOff = some off → ∃ q < 2 ^ 62, IsTarget s.pc off q := by
    intro off hoff
    obtain ⟨q, hq, -, hlt⟩ := hgen.target hoff
    exact ⟨q, hlt.trans hlen, hq⟩
  have hcompletes : ∃ x, stepInsn stackPtr s insns[s.pc] = .ok x :=
    (stepInsn_completes_iff (by omega) htarget).2 (hgen.noOverflow stackPtr s.regs)
  obtain ⟨⟨t, c⟩, hstep⟩ := hcompletes
  have hfall := hgen.fallsThrough
  rcases stepInsn_cases hstep with ⟨rfl, -, -, hkeeps⟩ | ⟨-, hexit | htail, -⟩
  · obtain ⟨hgt, hlt⟩ := hgen.lt_of_nextPc hp hkeeps.pc
    exact ⟨t, by rw [step_of_executed hexec, hstep], hkeeps.halted.trans hhalt, hgt, hlt⟩
  · rw [hexit] at hfall
    cases hfall
  · rw [htail] at hgen
    cases hgen

/-- **The interpreter** arrives at the `Exit` before it has taken as many steps as there are
instructions left, and executes it in the next one. -/
theorem run_exits (h : GeneratedProgram raw insns) (hlen : insns.length < 2 ^ 62)
    {s : InterpreterState} (hhalt : s.halted = false) (hp : s.pc < insns.length) :
    ∃ k t, s.pc + k < insns.length ∧ stepN stackPtr insns s k = .ok t ∧ t.halted = false ∧
      t.pc + 1 = insns.length ∧
      ∀ m, k < m → runLoop stackPtr insns m s = .ok { t with halted := true } := by
  generalize hd : insns.length - s.pc = d
  induction d using Nat.strong_induction_on generalizing s with
  | _ d ih =>
    by_cases hnext : s.pc + 1 < insns.length
    · obtain ⟨u, hstep, hhaltu, hgt, hlt⟩ := h.step_forward hlen hhalt hnext
      obtain ⟨k, t, hk, hsteps, hhaltt, hpct, hrun⟩ := ih _ (by omega) hhaltu hlt rfl
      have hone : stepN stackPtr insns s 1 = .ok u := stepState_eq_ok.2 ⟨true, hstep⟩
      refine ⟨1 + k, t, by omega, steps_trans hone hsteps, hhaltt, hpct, fun m hm => ?_⟩
      obtain ⟨m, rfl⟩ : ∃ n, m = n + 1 := ⟨m - 1, by omega⟩
      rw [runLoop, hstep, ok_bind]
      exact hrun m (by omega)
    · have hpc : s.pc = insns.length - 1 := by omega
      have hexec : executed insns s = some .exit := executed_eq_some.2 ⟨hhalt, hpc ▸ h.last⟩
      refine ⟨0, s, by omega, rfl, hhalt, by omega, fun m hm => ?_⟩
      obtain ⟨m, rfl⟩ : ∃ n, m = n + 1 := ⟨m - 1, by omega⟩
      rw [runLoop, step_of_executed hexec]
      rfl

end Run

end GeneratedProgram

/-! ### The programs of the generator -/

/-- **Generated programs.**  Whatever the source of numbers: the program decodes, the verifier
accepts it or finds a read of a register that may be uninitialised, and from any registers the
interpreter executes the final `Exit` within as many steps as there are instructions. -/
theorem generateProgram_valid [Profile] {ρ : Type} (nextU64 : ρ → U64 × ρ) (rng : ρ) {limit : ℕ}
    (hlimit : limit ≤ maxInsns) :
    ∃ raw rng' insns, generateProgram nextU64 limit rng = .ok (raw, rng') ∧
      decodeProgram raw = .ok insns ∧ raw.length = insns.length ∧
      ((∃ n, verifyProgram insns = .ok n) ∨
        ∃ pc reg, verifyProgram insns = fail (.uninitializedRegRead pc reg)) ∧
      ∀ stackPtr regs stack, ∃ k t, k < insns.length ∧
        stepN stackPtr insns (.start regs stack) k = .ok t ∧
        t.halted = false ∧ t.pc + 1 = insns.length ∧ insns[t.pc]? = some .exit ∧
        run stackPtr insns insns.length (.start regs stack) =
          .ok (t.regs BpfReg.r0, { t with halted := true }) := by
  have hmax : maxInsns = 1000000 := rfl
  obtain ⟨raw, rng', hgen, hlen, insns, h⟩ :=
    (generateProgram_yields nextU64 (show limit < 2 ^ 63 by omega)).exists_ok rng
  have hlength := h.decodes.length_eq
  have hpos := h.length_pos
  have hle : raw.length ≤ maxInsns := by omega
  have hne : raw ≠ [] := by
    rintro rfl
    rw [List.length_nil] at hlength
    omega
  refine ⟨raw, rng', insns, hgen, decodeProgram_of_decodes h.decodes hne hle, hlength,
    h.verifyProgram_meets (by omega), fun stackPtr regs stack => ?_⟩
  obtain ⟨k, t, hk, hsteps, hhalt, hpc, hrun⟩ :=
    @GeneratedProgram.run_exits raw insns _ stackPtr h (by omega) (.start regs stack) rfl hpos
  have hk' : k < insns.length := by omega
  refine ⟨k, t, hk', hsteps, hhalt, hpc, ?_, ?_⟩
  · rw [show t.pc = insns.length - 1 by omega]
    exact h.last
  · rw [run, hrun _ hk']
    rfl

/-- `generateProgram_valid` for the random numbers of the fuzzer, from the seed 42. -/
theorem generateProgram_valid_rng : ∃ raw rng insns,
    @generateProgram Rng debug Rng.nextU64 20 (Rng.new 42) = .ok (raw, rng) ∧
      decodeProgram raw = .ok insns ∧
      ((∃ n, verifyProgram insns = .ok n) ∨
        ∃ pc reg, verifyProgram insns = fail (.uninitializedRegRead pc reg)) := by
  obtain ⟨raw, rng, insns, hgen, hdec, -, hver, -⟩ :=
    @generateProgram_valid debug Rng Rng.nextU64 (Rng.new 42) 20 (by decide)
  exact ⟨raw, rng, insns, hgen, hdec, hver⟩

end NVMirror
