import NVMirror.EbpfCore.Slots
import NVMirror.JitEngine.Soundness

/-!
# Where control goes in accepted programs

* `controlSafe_iff`: a run stays in the program, and stops only at `Exit`, exactly if it never
  executes an untaken conditional jump as the last instruction (`FallsOff`).
* `stops_iff`: a run stops exactly if it takes finitely many backward jumps; with at most `B` of
  them it stops within `(B + 1) * n` steps.
* `stopsAfter_length`: without backward jumps in the program, within `n` steps.
-/

namespace NVMirror

open Rust

variable {insns : List Insn}

/-! ### Staying in the program -/

/-- The last instruction is a conditional jump and is not taken. -/
def FallsOff (insns : List Insn) (s : InterpreterState) : Prop :=
  ∃ insn, executed insns s = some insn ∧ insn.isCondJump = true ∧ insn.taken s.regs = false ∧
    s.pc + 1 = insns.length

section

variable [Profile] {stackPtr : U64}

/-- In every state of the run `pc` is an index of the program, and only `Exit` stops the run. -/
def ControlSafe (stackPtr : U64) (insns : List Insn) (s : InterpreterState) : Prop :=
  ∀ k t, stepN stackPtr insns s k = .ok t → t.pc < insns.length ∧
    ∀ t', step stackPtr insns t = .ok (t', false) → t.halted = false →
      insns[t.pc]? = some .exit

/-- A step leaves the program exactly if it falls off. -/
theorem step_pc_lt_iff (hv : Verified insns) (htail : ∀ insn ∈ insns, insn ≠ .tailCall)
    {s s' : InterpreterState} {c : Bool} (hpc : s.pc < insns.length)
    (h : step stackPtr insns s = .ok (s', c)) : s'.pc < insns.length ↔ ¬ FallsOff insns s := by
  rcases step_cases h with ⟨he, -, rfl⟩ | ⟨insn, he, ⟨-, hne, -, hk⟩ | ⟨-, hexit, rfl⟩⟩
  · refine iff_of_true hpc ?_
    rintro ⟨insn, he', -⟩
    rw [he] at he'
    cases he'
  · have hinsn := (executed_eq_some.1 he).2
    rcases hk.pc with ⟨htaken, hpc'⟩ | ⟨htaken, off, hoff, hjump⟩
    · constructor
      · rintro hlt ⟨-, -, -, -, hlast⟩
        omega
      · intro hno
        by_contra hge
        have hlast : s.pc + 1 = insns.length := by omega
        -- the last instruction is a jump, and it is not taken
        have hpc1 : insns.length - 1 = s.pc := by omega
        rcases hv.last insn (by rw [hpc1]; exact hinsn) with rfl | rfl | hjump
        · exact hne rfl
        · exact htail _ (List.mem_of_getElem? hinsn) rfl
        · obtain ⟨off, hoff⟩ := Option.isSome_iff_exists.1 hjump
          exact hno ⟨insn, he, Insn.isCondJump_of_not_taken hoff htaken, htaken, hlast⟩
    · obtain ⟨q, hq, ht⟩ := hv.targets _ insn off hinsn hoff
      rw [jumpPc_of_isTarget hjump ht]
      refine iff_of_true hq ?_
      rintro ⟨insn', he', -, htaken', -⟩
      rw [he] at he'
      cases he'
      rw [htaken] at htaken'
      cases htaken'
  · refine iff_of_true hpc ?_
    rintro ⟨insn', he', hcond, -⟩
    rw [he] at he'
    cases he'
    rcases hexit with rfl | rfl <;> cases hcond

/-- A step that falls off succeeds. -/
theorem step_of_fallsOff {s : InterpreterState} (hlen : insns.length < 2 ^ 62)
    (h : FallsOff insns s) :
    step stackPtr insns s = .ok ({ s with pc := s.pc + 1 }, true) := by
  obtain ⟨insn, he, hcond, htaken, hlast⟩ := h
  rw [step_of_executed he]
  have hadv : advance s = .ok ({ s with pc := s.pc + 1 }, true) := advance_of_lt (by omega)
  cases insn with
  | jmpCond op dst src off | jmpCond32 op dst src off =>
    dsimp only [stepInsn, Insn.taken] at htaken ⊢
    rw [htaken]
    exact hadv
  | _ => cases hcond

/-- A step that does not continue has executed `Exit`. -/
theorem exit_of_step_false (htail : ∀ insn ∈ insns, insn ≠ .tailCall) {s s' : InterpreterState}
    (hpc : s.pc < insns.length) (hhalt : s.halted = false)
    (h : step stackPtr insns s = .ok (s', false)) : insns[s.pc]? = some .exit := by
  have he := executed_eq_some.2 ⟨hhalt, List.getElem?_eq_getElem hpc⟩
  rcases step_cases h with ⟨he', -⟩ | ⟨insn, he', ⟨hc, -⟩ | ⟨-, hexit, -⟩⟩
  · rw [he] at he'
    cases he'
  · cases hc
  · have hinsn := (executed_eq_some.1 he').2
    rcases hexit with rfl | rfl
    · exact hinsn
    · exact absurd rfl (htail _ (List.mem_of_getElem? hinsn))

/-- **Control stays in an accepted program** exactly in the runs that never fall off: in which no
conditional jump that is the last instruction is executed and not taken. -/
theorem controlSafe_iff {raw : List RawInsn} {n : ℕ} (hdec : decodeProgram raw = .ok insns)
    (hver : verifyProgram insns = .ok n) (stackPtr : U64) {s : InterpreterState} (h0 : s.pc = 0) :
    ControlSafe stackPtr insns s ↔
      ∀ k t, stepN stackPtr insns s k = .ok t → ¬ FallsOff insns t := by
  have hv := verified_of_verifyProgram hver
  have hd := decoded_of_decodeProgram hdec
  have htail : ∀ insn ∈ insns, insn ≠ .tailCall := fun insn hi => (hd.fromWire insn hi).ne_tailCall
  have hlen : insns.length < 2 ^ 62 := by
    have := hd.length_le
    unfold maxInsns at this
    omega
  constructor
  · intro hsafe k t ht hfall
    have hstep : step stackPtr insns t = .ok ({ t with pc := t.pc + 1 }, true) :=
      step_of_fallsOff hlen hfall
    have hnext := hsafe (k + 1) _ (stepN_succ_eq_ok.2 ⟨t, true, ht, hstep⟩)
    obtain ⟨-, -, -, -, hlast⟩ := hfall
    have : t.pc + 1 < insns.length := hnext.1
    omega
  · intro hno
    have hpc : ∀ k t, stepN stackPtr insns s k = .ok t → t.pc < insns.length := by
      intro k
      induction k with
      | zero =>
        intro t ht
        cases ht
        rw [h0]
        exact List.length_pos_iff.2 hv.ne_nil
      | succ k ih =>
        intro t ht
        obtain ⟨u, c, hu, hstep⟩ := stepN_succ_eq_ok.1 ht
        exact (step_pc_lt_iff hv htail (ih u hu) hstep).2 (hno k u hu)
    intro k t ht
    exact ⟨hpc k t ht, fun t' hstep hhalt => exit_of_step_false htail (hpc k t ht) hhalt hstep⟩

end

/-- `r0 = 0; if r0 != 1 goto +1; exit; if r0 == 1 goto -2`. -/
def branchAtEnd : List RawInsn :=
  [⟨0xb7, 0, 0, 0⟩, ⟨0x55, 0, 1, 1⟩, ⟨0x95, 0, 0, 0⟩, ⟨0x15, 0, -2, 1⟩]

/-- `branchAtEnd`, decoded. -/
def branchAtEndInsns : List Insn :=
  [.alu64 .mov BpfReg.r0 (.imm 0), .jmpCond .jne BpfReg.r0 (.imm 1) 1, .exit,
    .jmpCond .jeq BpfReg.r0 (.imm 1) (-2)]

theorem decode_branchAtEnd : decodeProgram branchAtEnd = .ok branchAtEndInsns := by
  decide +kernel

/-- All registers and the stack are zero. -/
def InterpreterState.zero : InterpreterState := .start (fun _ => 0) fun _ => 0

/-- `controlSafe_iff` at a program whose last instruction is a conditional jump. -/
theorem controlSafe_iff_branchAtEnd : ¬ @ControlSafe debug 0x1000 branchAtEndInsns .zero := by
  have hok : verifyProgram branchAtEndInsns = .ok 3 := rfl
  have h := @controlSafe_iff _ debug _ _ decode_branchAtEnd hok 0x1000 .zero rfl
  intro hsafe
  exact h.1 hsafe 2 _ rfl ⟨_, rfl, rfl, rfl, rfl⟩

/-- **An accepted program runs off its end.**  After three steps `pc` is the number of
instructions. -/
theorem branchAtEnd_falls_off :
    decodeProgram branchAtEnd = .ok branchAtEndInsns ∧ verifyProgram branchAtEndInsns = .ok 3 ∧
      ∃ t, @stepN debug 0x1000 branchAtEndInsns .zero 3 = .ok t ∧
        t.pc = branchAtEndInsns.length :=
  ⟨decode_branchAtEnd, rfl, _, rfl, rfl⟩

/-! ### Termination -/

/-- The step takes a backward jump. -/
def jumpsBack (insns : List Insn) (s : InterpreterState) : Bool :=
  match executed insns s with
  | some insn =>
    match insn.jumpOff with
    | some off => insn.taken s.regs && decide (off.toInt < 0)
    | none => false
  | none => false

section

variable [Profile] {stackPtr : U64}

/-- Number of backward jumps taken in the first `k` steps. -/
def backJumps (stackPtr : U64) (insns : List Insn) (s : InterpreterState) : ℕ → ℕ
  | 0 => 0
  | k + 1 => backJumps stackPtr insns s k +
    match stepN stackPtr insns s k with
    | .ok t => if jumpsBack insns t then 1 else 0
    | .error _ => 0

/-- After `k` steps the run is over: it has stopped, or it has panicked. -/
def StopsAfter (stackPtr : U64) (insns : List Insn) (s : InterpreterState) (k : ℕ) : Prop :=
  ∀ t, stepN stackPtr insns s k = .ok t → executed insns t = none

theorem StopsAfter.mono {s : InterpreterState} {j k : ℕ} (hjk : j ≤ k)
    (h : StopsAfter stackPtr insns s j) : StopsAfter stackPtr insns s k := by
  intro t ht
  obtain ⟨u, hu⟩ := steps_of_le hjk ht
  obtain ⟨d, rfl⟩ := Nat.exists_eq_add_of_le hjk
  rw [stepN_of_not_executed hu (h u hu) d] at ht
  cases ht
  exact h _ hu

/-- A run that is over takes no more backward jumps. -/
theorem backJumps_of_stopsAfter {s : InterpreterState} {j : ℕ}
    (h : StopsAfter stackPtr insns s j) (d : ℕ) :
    backJumps stackPtr insns s (j + d) = backJumps stackPtr insns s j := by
  induction d with
  | zero => rfl
  | succ d ih =>
    rw [← Nat.add_assoc, backJumps, ih]
    cases ht : stepN stackPtr insns s (j + d) with
    | error f => rfl
    | ok t =>
      have he := h.mono (Nat.le_add_right j d) t ht
      dsimp only
      rw [jumpsBack, he]
      rfl

theorem backJumps_mono (s : InterpreterState) : Monotone (backJumps stackPtr insns s) :=
  monotone_nat_of_le_succ fun _ => Nat.le_add_right _ _

omit [Profile] in
/-- A step that does not jump back moves forward. -/
theorem Keeps.pc_lt {s s' : InterpreterState} {insn : Insn} (htargets : TargetsInBounds insns)
    (he : executed insns s = some insn) (hback : jumpsBack insns s = false)
    (hk : Keeps insn s s') : s.pc + 1 ≤ s'.pc := by
  have hinsn := (executed_eq_some.1 he).2
  rcases hk.pc with ⟨-, hpc⟩ | ⟨htaken, off, hoff, hjump⟩
  · omega
  · obtain ⟨q, -, ht⟩ := htargets _ insn off hinsn hoff
    have hnonneg : 0 ≤ off.toInt := by
      simpa [jumpsBack, he, hoff, htaken] using hback
    rw [jumpPc_of_isTarget hjump ht]
    unfold IsTarget at ht
    omega

/-- While the program runs, the steps are paid for: every backward jump pays for one pass over
the program, and `pc` for the steps since the last one. -/
theorem steps_le (hv : Verified insns) {s t : InterpreterState} {k : ℕ}
    (h : stepN stackPtr insns s k = .ok t) (hrun : executed insns t ≠ none) :
    k ≤ backJumps stackPtr insns s k * insns.length + t.pc := by
  induction k generalizing t with
  | zero => exact Nat.zero_le _
  | succ k ih =>
    obtain ⟨u, c, hu, hstep⟩ := stepN_succ_eq_ok.1 h
    rcases step_cases hstep with ⟨he, -, rfl⟩ | ⟨insn, he, ⟨-, -, -, hk⟩ | ⟨-, -, rfl⟩⟩
    · exact absurd he hrun
    · have hle := ih hu (by rw [he]; simp)
      have hlt := (List.getElem?_eq_some_iff.1 (executed_eq_some.1 he).2).1
      rw [backJumps, hu]
      dsimp only
      cases hback : jumpsBack insns u with
      | false =>
        have := hk.pc_lt hv.targets he hback
        simp only [Bool.false_eq_true, if_false, Nat.add_zero]
        omega
      | true =>
        rw [if_pos rfl, Nat.add_mul]
        omega
    · exact absurd (if_pos rfl) hrun

/-- With at most `B` backward jumps a run is over after `(B + 1) * n` steps. -/
theorem stopsAfter_of_backJumps_le (hv : Verified insns) {s : InterpreterState} {B : ℕ}
    (hB : ∀ k, backJumps stackPtr insns s k ≤ B) :
    StopsAfter stackPtr insns s ((B + 1) * insns.length) := by
  intro t ht
  by_contra hrun
  have hle := steps_le hv ht hrun
  obtain ⟨insn, he⟩ := Option.ne_none_iff_exists'.1 hrun
  have hlt := (List.getElem?_eq_some_iff.1 (executed_eq_some.1 he).2).1
  have hmul := Nat.mul_le_mul_right insns.length (hB ((B + 1) * insns.length))
  rw [Nat.add_mul, Nat.one_mul] at hle
  rw [Nat.add_mul, Nat.one_mul] at hmul
  omega

/-- **Termination.**  A run of an accepted program ends exactly if it takes only finitely many
backward jumps; with at most `B` of them it ends within `(B + 1) * n` steps. -/
theorem stops_iff {n : ℕ} (hver : verifyProgram insns = .ok n) (stackPtr : U64)
    (regs : BpfReg → U64) (stack : Fin stackSize → U8) :
    ((∃ k, StopsAfter stackPtr insns (.start regs stack) k) ↔
        ∃ B, ∀ k, backJumps stackPtr insns (.start regs stack) k ≤ B) ∧
      ∀ B, (∀ k, backJumps stackPtr insns (.start regs stack) k ≤ B) →
        StopsAfter stackPtr insns (.start regs stack) ((B + 1) * insns.length) := by
  have hv := verified_of_verifyProgram hver
  refine ⟨⟨fun ⟨j, hj⟩ => ⟨backJumps stackPtr insns (.start regs stack) j, fun k => ?_⟩,
    fun ⟨B, hB⟩ => ⟨_, stopsAfter_of_backJumps_le hv hB⟩⟩,
    fun B hB => stopsAfter_of_backJumps_le hv hB⟩
  rw [← backJumps_of_stopsAfter hj k]
  exact backJumps_mono _ (Nat.le_add_left k j)

/-- A program without backward jumps ends within as many steps as it has instructions. -/
theorem stopsAfter_length (hv : Verified insns)
    (hforward : ∀ insn ∈ insns, ∀ off, insn.jumpOff = some off → 0 ≤ off.toInt)
    (s : InterpreterState) : StopsAfter stackPtr insns s insns.length := by
  have hnone : ∀ t, jumpsBack insns t = false := by
    intro t
    unfold jumpsBack
    cases he : executed insns t with
    | none => rfl
    | some insn =>
      dsimp only
      cases hoff : insn.jumpOff with
      | none => rfl
      | some off =>
        have := hforward insn (List.mem_of_getElem? (executed_eq_some.1 he).2) off hoff
        simp [this]
  have hzero : ∀ k, backJumps stackPtr insns s k ≤ 0 := by
    intro k
    induction k with
    | zero => exact le_rfl
    | succ k ih =>
      rw [backJumps]
      cases stepN stackPtr insns s k with
      | error f => exact ih
      | ok t => simpa [hnone t] using ih
  simpa using stopsAfter_of_backJumps_le hv hzero

end

/-- `r0 = 0; if r0 == 0 goto -1; exit`: the jump is its own target. -/
def spin : List RawInsn :=
  [⟨0xb7, 0, 0, 0⟩, ⟨0x15, 0, -1, 0⟩, ⟨0x95, 0, 0, 0⟩]

/-- `spin`, decoded. -/
def spinInsns : List Insn :=
  [.alu64 .mov BpfReg.r0 (.imm 0), .jmpCond .jeq BpfReg.r0 (.imm 0) (-1), .exit]

theorem decode_spin : decodeProgram spin = .ok spinInsns := by
  decide +kernel

/-- The state `spin` stays in. -/
def spinning : InterpreterState := { InterpreterState.zero.setReg BpfReg.r0 0 with pc := 1 }

theorem stepN_spin (k : ℕ) : @stepN debug 0x1000 spinInsns .zero (k + 1) = .ok spinning := by
  induction k with
  | zero => rfl
  | succ k ih => exact (@stepN_succ_eq_ok debug _ _ _ _ _).2 ⟨spinning, true, ih, rfl⟩

theorem not_stopsAfter_spin (k : ℕ) : ¬ @StopsAfter debug 0x1000 spinInsns .zero k := by
  intro h
  have hnone := @StopsAfter.mono _ debug _ _ _ _ (Nat.le_succ k) h spinning (stepN_spin k)
  cases hnone

/-- `stops_iff` at the endless loop: its backward jumps are not bounded. -/
theorem stops_iff_spin : ¬ ∃ B, ∀ k, @backJumps debug 0x1000 spinInsns .zero k ≤ B := by
  have hok : verifyProgram spinInsns = .ok 3 := rfl
  intro hB
  obtain ⟨k, hk⟩ := (@stops_iff _ debug 3 hok 0x1000 (fun _ => 0) fun _ => 0).1.2 hB
  exact not_stopsAfter_spin k hk

/-- **An accepted program never stops.**  `spin` neither halts nor panics, after any number of
steps. -/
theorem spin_never_stops :
    decodeProgram spin = .ok spinInsns ∧ verifyProgram spinInsns = .ok 3 ∧
      ∀ k, ∃ t, @stepN debug 0x1000 spinInsns .zero k = .ok t ∧ executed spinInsns t ≠ none := by
  refine ⟨decode_spin, rfl, fun k => ?_⟩
  cases k with
  | zero => exact ⟨.zero, rfl, by decide⟩
  | succ k => exact ⟨spinning, stepN_spin k, by decide⟩

end NVMirror
