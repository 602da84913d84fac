import NVMirror.EbpfCore.Slots
import NVMirror.JitEngine.Soundness
import NVMirror.JitEngine.StackBuffer

/-!
# When the interpreter panics

* `stepInsn_completes_iff`: one instruction completes exactly if it does not overflow
  (`NoOverflow`): it does not negate the least integer, its address computation does not leave the
  64-bit range, and index plus width does not either.
* `completes_iff`: the same for every state a run of an accepted program reaches; the run never
  panics exactly if no instruction it executes overflows.
* `negateLeast_panics`: an accepted program that panics in a debug build.
-/

namespace NVMirror

open Rust

variable [Profile]

/-- The address of an access, and the end of the access, do not overflow.  The end is computed
before the bounds are checked, in every profile. -/
structure AccessInRange (stackPtr base : U64) (off : I16) (width : MemWidth) : Prop where
  address : Profile.overflowChecks → AddressFits stackPtr base off
  stop : (base + off.signExtend 64 - stackPtr).toNat + width.byteLen < 2 ^ 64

/-- The instruction does not overflow. -/
def Insn.NoOverflow (stackPtr : U64) (regs : BpfReg → U64) : Insn → Prop
  | .alu64 op dst _ => op = .neg → Profile.overflowChecks → regs dst ≠ BitVec.intMin 64
  | .alu32 op dst _ =>
    op = .neg → Profile.overflowChecks → (regs dst).setWidth 32 ≠ BitVec.intMin 32
  | .load width _ base off | .storeReg width base _ off | .storeImm width base off _ =>
    AccessInRange stackPtr (regs base) off width
  | _ => True

theorem negS_completes_iff {w : ℕ} (hw : 0 < w) (x : BitVec w) :
    (∃ v, negS (ε := Empty) x = .ok v) ↔ (Profile.overflowChecks → x ≠ BitVec.intMin w) := by
  unfold negS
  rw [exists_overflowing_iff, BitVec.negOverflow_eq, decide_eq_true hw, Bool.true_and,
    beq_eq_false_iff_ne]

theorem evalAlu64_completes_iff (op : AluOp) (a b : U64) :
    (∃ v, evalAlu64 op a b = .ok v) ↔
      (op = .neg → Profile.overflowChecks → a ≠ BitVec.intMin 64) := by
  cases op with
  | neg => exact (negS_completes_iff (by decide) a).trans ⟨fun h _ => h, fun h => h rfl⟩
  | _ => exact iff_of_true ⟨_, rfl⟩ fun h => by cases h

theorem evalAlu32_completes_iff (op : AluOp) (a b : U32) :
    (∃ v, evalAlu32 op a b = .ok v) ↔
      (op = .neg → Profile.overflowChecks → a ≠ BitVec.intMin 32) := by
  cases op with
  | neg => exact (negS_completes_iff (by decide) a).trans ⟨fun h _ => h, fun h => h rfl⟩
  | _ => exact iff_of_true ⟨_, rfl⟩ fun h => by cases h

variable {stackPtr : U64} {insns : List Insn}

omit [Profile] in
/-- A computation followed by one that completes. -/
theorem bind_completes_iff {α β : Type} {x : Rust Empty α} {f : α → Rust Empty β}
    (hf : ∀ a, x = .ok a → ∃ b, f a = .ok b) : (∃ b, (x >>= f) = .ok b) ↔ ∃ a, x = .ok a := by
  constructor
  · rintro ⟨b, hb⟩
    obtain ⟨a, ha, -⟩ := bind_eq_ok.1 hb
    exact ⟨a, ha⟩
  · rintro ⟨a, ha⟩
    obtain ⟨b, hb⟩ := hf a ha
    exact ⟨b, bind_eq_ok.2 ⟨a, ha, hb⟩⟩

/-- An address computation followed by an access of that address. -/
theorem access_completes_iff {β : Type} {base : U64} {off : I16} {width : MemWidth}
    {f : U64 → Rust Empty β}
    (hf : ∀ rel, (∃ b, f rel = .ok b) ↔ rel.toNat + width.byteLen < 2 ^ 64) :
    (∃ b, (stackRel stackPtr base off >>= f) = .ok b) ↔ AccessInRange stackPtr base off width := by
  simp only [bind_eq_ok, stackRel_eq_ok]
  constructor
  · rintro ⟨b, rel, ⟨haddr, rfl⟩, hb⟩
    exact ⟨haddr, (hf _).1 ⟨b, hb⟩⟩
  · intro h
    obtain ⟨b, hb⟩ := (hf _).2 h.stop
    exact ⟨b, _, ⟨h.address, rfl⟩, hb⟩

/-- **One instruction.** -/
theorem stepInsn_completes_iff {s : InterpreterState} {insn : Insn} (hpc : s.pc < 2 ^ 62)
    (htarget : ∀ off, insn.jumpOff = some off → ∃ q < 2 ^ 62, IsTarget s.pc off q) :
    (∃ x, stepInsn stackPtr s insn = .ok x) ↔ insn.NoOverflow stackPtr s.regs := by
  have hadv : ∀ t : InterpreterState, t.pc = s.pc → ∃ x, advance t = .ok x := fun t ht =>
    ⟨_, advance_of_lt (by omega)⟩
  have hbranch : ∀ (taken : Bool) (off : I16), insn.jumpOff = some off →
      ∃ x, branch s taken off = .ok x := by
    intro taken off hoff
    obtain ⟨q, hq, ht⟩ := htarget off hoff
    cases taken with
    | false => exact hadv s rfl
    | true => exact ⟨_, by rw [branch, if_pos rfl, jumpPc_eq ht hpc hq]; rfl⟩
  cases insn with
  | alu64 op dst src =>
    refine Iff.trans (bind_completes_iff ?_) (evalAlu64_completes_iff op _ _)
    exact fun v _ => hadv (s.setReg dst v) rfl
  | alu32 op dst src =>
    refine Iff.trans (bind_completes_iff ?_) (evalAlu32_completes_iff op _ _)
    exact fun v _ => hadv (s.setReg dst (v.setWidth 64)) rfl
  | load width dst base off =>
    refine access_completes_iff fun rel => ?_
    rw [bind_completes_iff fun v _ => hadv (s.setReg dst v) rfl]
    simp only [readStack_eq_ok, exists_and_left, exists_eq, and_true]
  | storeReg width base src off | storeImm width base off imm =>
    refine access_completes_iff fun rel => ?_
    rw [bind_completes_iff fun stack _ => hadv { s with stack } rfl]
    simp only [writeStack_eq_ok, exists_and_left, exists_eq, and_true]
  | ja off | jmpCond op dst src off | jmpCond32 op dst src off =>
    exact iff_of_true (hbranch _ off rfl) trivial
  | loadImm64 | call | atomic | endian => exact iff_of_true (hadv _ rfl) trivial
  | exit | tailCall => exact iff_of_true ⟨_, rfl⟩ trivial

/-! ### Runs -/

/-- The instruction executed next, if any, does not overflow. -/
def StepFits (stackPtr : U64) (insns : List Insn) (s : InterpreterState) : Prop :=
  ∀ insn, executed insns s = some insn → insn.NoOverflow stackPtr s.regs

theorem step_completes_iff (htargets : TargetsInBounds insns) (hlen : insns.length < 2 ^ 62)
    (s : InterpreterState) :
    (∃ x, step stackPtr insns s = .ok x) ↔ StepFits stackPtr insns s := by
  cases he : executed insns s with
  | none =>
    refine iff_of_true ⟨_, step_of_not_executed he⟩ fun insn h => ?_
    rw [he] at h
    cases h
  | some insn =>
    have hinsn := (executed_eq_some.1 he).2
    have hlt := (List.getElem?_eq_some_iff.1 hinsn).1
    rw [step_of_executed he, stepInsn_completes_iff (by omega) fun off hoff => ?_]
    · constructor
      · intro h insn' he'
        rw [he] at he'
        cases he'
        exact h
      · exact fun h => h insn he
    · obtain ⟨q, hq, ht⟩ := htargets _ insn off hinsn hoff
      exact ⟨q, by omega, ht⟩

/-- **When the interpreter panics.**  In every state a run of an accepted program reaches, the next
step completes exactly if the instruction it executes does not overflow; and the run never panics
exactly if that holds of all its states. -/
theorem completes_iff {raw : List RawInsn} {n : ℕ} (hdec : decodeProgram raw = .ok insns)
    (hver : verifyProgram insns = .ok n) (stackPtr : U64) :
    (∀ k s, stepN stackPtr insns .new k = .ok s →
      ((∃ x, step stackPtr insns s = .ok x) ↔ StepFits stackPtr insns s)) ∧
      ((∀ k, ∃ s, stepN stackPtr insns .new k = .ok s) ↔
        ∀ k s, stepN stackPtr insns .new k = .ok s → StepFits stackPtr insns s) := by
  have hlen : insns.length < 2 ^ 62 := by
    have := (decoded_of_decodeProgram hdec).length_le
    unfold maxInsns at this
    omega
  have hstep : ∀ s, (∃ x, step stackPtr insns s = .ok x) ↔ StepFits stackPtr insns s :=
    step_completes_iff (verified_of_verifyProgram hver).targets hlen
  refine ⟨fun k s _ => hstep s, fun hall k s hs => ?_, fun hall k => ?_⟩
  · obtain ⟨t, ht⟩ := hall (k + 1)
    obtain ⟨s', c, hs', hst⟩ := stepN_succ_eq_ok.1 ht
    rw [hs] at hs'
    cases hs'
    exact (hstep s).1 ⟨_, hst⟩
  · induction k with
    | zero => exact ⟨_, rfl⟩
    | succ k ih =>
      obtain ⟨s, hs⟩ := ih
      obtain ⟨⟨t, c⟩, ht⟩ := (hstep s).2 (hall k s hs)
      exact ⟨t, stepN_succ_eq_ok.2 ⟨s, c, hs, ht⟩⟩

omit [Profile]

/-- `r0 = -2⁶³ ll; r0 = -r0; exit`. -/
def negateLeast : List RawInsn :=
  [⟨0x18, 0, 0, 0⟩, ⟨0, 0, 0, 0x80000000⟩, ⟨0x87, 0, 0, 0⟩, ⟨0x95, 0, 0, 0⟩]

/-- `negateLeast`, decoded. -/
def negateLeastInsns : List Insn :=
  [.loadImm64 BpfReg.r0 0x8000000000000000, .alu64 .neg BpfReg.r0 (.imm 0), .exit]

theorem decode_negateLeast : decodeProgram negateLeast = .ok negateLeastInsns := by
  decide +kernel

/-- `completes_iff` at `negateLeast`, without overflow checks. -/
theorem completes_iff_negateLeast : verifyProgram negateLeastInsns = .ok 1 ∧
    ∀ k, ∃ s, @stepN release 0x1000 negateLeastInsns .new k = .ok s := by
  have hok : verifyProgram negateLeastInsns = .ok 1 := rfl
  refine ⟨hok, (@completes_iff release _ _ _ decode_negateLeast hok 0x1000).2.2 ?_⟩
  intro k s hs insn he
  have hmem := List.mem_of_getElem? (executed_eq_some.1 he).2
  fin_cases hmem
  · trivial
  · exact fun _ hc => by cases hc
  · trivial

/-- **The interpreter panics in debug builds.**  An accepted program negates the least integer. -/
theorem negateLeast_panics :
    decodeProgram negateLeast = .ok negateLeastInsns ∧ verifyProgram negateLeastInsns = .ok 1 ∧
      ∃ s, @stepN debug 0x1000 negateLeastInsns .new 1 = .ok s ∧
        @step debug 0x1000 negateLeastInsns s = panic :=
  ⟨decode_negateLeast, rfl, _, rfl, rfl⟩

end NVMirror
