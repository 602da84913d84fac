import NVMirror.EbpfCore.Dataflow
import NVMirror.EbpfCore.Slots
import NVMirror.Library.Reachability

/-!
# Paths in accepted programs

* `reach_of_verifyProgram`: the verifier accepts a program only if paths from instruction 0 lead
  to all of its instructions.
* `exit_reachable_iff`: from every instruction a path leads to an `Exit`, unless the program has a
  loop that no path leaves for good.  The verifier looks at each block on its own and accepts such
  programs.
-/

namespace NVMirror

open Rust Leaders Relation Reachability

variable {insns : List Insn} {flags : List Bool}

/-- Some path of edges leads from the first instruction to the second one. -/
def Reach (insns : List Insn) : ℕ → ℕ → Prop := ReflTransGen (Edge insns)

theorem Edge.lt {pc q : ℕ} (h : Edge insns pc q) : pc < insns.length := by
  obtain ⟨-, insn, hget, -⟩ := h
  exact (List.getElem?_eq_some_iff.1 hget).1

/-! ### From instruction 0 -/

/-- Inside a block one instruction leads to the next. -/
theorem reach_in_block {i s : ℕ} (hmarks : Marks Insn.endsBlock insns flags)
    (hs : (positions flags)[i]? = some s) {pc : ℕ} (hle : s ≤ pc) (hlt : pc < blockStop flags i) :
    Reach insns s pc := by
  obtain ⟨k, rfl⟩ := Nat.exists_eq_add_of_le hle
  induction k with
  | zero => exact ReflTransGen.refl
  | succ k ih =>
    refine (ih (by omega) (by omega)).tail ?_
    exact (edge_iff_of_mem_block hmarks hs (by omega) (by omega)).2 rfl

/-- **All instructions of an accepted program are reachable.** -/
theorem reach_of_verifyProgram {n : ℕ} (h : verifyProgram insns = .ok n) {pc : ℕ}
    (hpc : pc < insns.length) : Reach insns 0 pc := by
  have hP : FlowClosed insns fun pc _ => Reach insns 0 pc :=
    ⟨ReflTransGen.refl, fun _ _ _ hreach hedge => ReflTransGen.tail hreach hedge,
      fun _ _ _ hreach _ => hreach⟩
  obtain ⟨flags, bbs, hconv, -, hall, -⟩ := (verifyProgram_flow hP).of_ok h
  obtain ⟨i, b, hb, hle, hlt⟩ := hconv.exists_block hconv.marks hpc
  have hblock := hconv.isBlock i b hb
  have hstart := hconv.closed i b hb (hall b (List.mem_of_getElem? hb)).1
  exact hstart.trans (reach_in_block hconv.marks hblock.start_eq hle (hblock.stop_eq ▸ hlt))

/-! ### To an exit -/

/-- A path through an accepted program ends only at an `Exit` or a tail call. -/
theorem Verified.exit_or_tailCall_of_deadEnd (h : Verified insns) {pc : ℕ}
    (hpc : pc < insns.length) (hdead : DeadEnd (Edge insns) pc) :
    insns[pc]? = some .exit ∨ insns[pc]? = some .tailCall := by
  have hget := List.getElem?_eq_getElem hpc
  rw [hget]
  cases hoff : insns[pc].jumpOff with
  | some off =>
    obtain ⟨q, hq, htarget⟩ := h.targets pc _ off hget hoff
    exact absurd ⟨hq, _, hget, Or.inr ⟨off, hoff, htarget⟩⟩ (hdead q)
  | none =>
    have hnext : ¬ (insns[pc].fallsThrough ∧ pc + 1 < insns.length) :=
      fun hfall => hdead (pc + 1) ⟨hfall.2, _, hget, Or.inl ⟨hfall.1, rfl⟩⟩
    by_cases hlast : pc + 1 < insns.length
    · -- neither a jump nor falling through
      cases hinsn : insns[pc] with
      | exit => exact Or.inl rfl
      | ja off =>
        rw [hinsn] at hoff
        cases hoff
      | _ =>
        rw [hinsn] at hnext
        exact absurd ⟨rfl, hlast⟩ hnext
    · obtain rfl : pc = insns.length - 1 := by omega
      rcases h.last _ hget with hexit | htc | hjump
      · exact Or.inl (congrArg some hexit)
      · exact Or.inr (congrArg some htc)
      · rw [hoff] at hjump
        cases hjump

/-- In an accepted program only `Exit` has no successor. -/
theorem deadEnd_iff_exit (h : Verified insns) (htail : ∀ insn ∈ insns, insn ≠ .tailCall) {pc : ℕ}
    (hpc : pc < insns.length) : DeadEnd (Edge insns) pc ↔ insns[pc]? = some .exit := by
  constructor
  · intro hdead
    rcases h.exit_or_tailCall_of_deadEnd hpc hdead with hexit | htc
    · exact hexit
    · exact absurd rfl (htail _ (List.mem_of_getElem? htc))
  · rintro hexit q ⟨-, insn, hinsn, hedge⟩
    rw [hexit] at hinsn
    cases hinsn
    rcases hedge with ⟨hfall, -⟩ | ⟨off, hoff, -⟩
    · cases hfall
    · cases hoff

/-- **An exit stays reachable** from every instruction of an accepted program iff the program has
no trap: no loop to which every path from it can return. -/
theorem exit_reachable_iff {raw : List RawInsn} {n : ℕ} (hdec : decodeProgram raw = .ok insns)
    (hver : verifyProgram insns = .ok n) :
    (∀ pc < insns.length, ∃ q, Reach insns pc q ∧ insns[q]? = some .exit) ↔
      ∀ pc < insns.length, ¬ Trap (Edge insns) pc := by
  have hverified := verified_of_verifyProgram hver
  have htail : ∀ insn ∈ insns, insn ≠ .tailCall := fun insn hmem =>
    ((decoded_of_decodeProgram hdec).fromWire insn hmem).ne_tailCall
  have hstay : ∀ pc ∈ {pc | pc < insns.length}, ∀ q, Edge insns pc q →
      q ∈ {pc | pc < insns.length} := fun pc _ q hedge => hedge.1
  have hiff := forall_reaches_deadEnd_iff (Set.finite_lt_nat insns.length) hstay
  refine Iff.trans ⟨fun hall pc hpc => ?_, fun hall pc hpc => ?_⟩ hiff
  · obtain ⟨q, hreach, hexit⟩ := hall pc hpc
    have hq := (List.getElem?_eq_some_iff.1 hexit).1
    exact ⟨q, hreach, (deadEnd_iff_exit hverified htail hq).2 hexit⟩
  · obtain ⟨q, hreach, hdead⟩ := hall pc hpc
    have hq : q < insns.length := by
      rcases ReflTransGen.cases_tail hreach with rfl | ⟨p, -, hedge⟩
      · exact hpc
      · exact hedge.1
    exact ⟨q, hreach, (deadEnd_iff_exit hverified htail hq).1 hdead⟩

/-- `r0 = 0; if r0 == 0 goto +1; exit; goto -1`. -/
def spinBesideExit : List RawInsn :=
  [⟨0xb7, 0, 0, 0⟩, ⟨0x15, 0, 1, 0⟩, ⟨0x95, 0, 0, 0⟩, ⟨0x05, 0, -1, 0⟩]

/-- `spinBesideExit`, decoded. -/
def spinBesideExitInsns : List Insn :=
  [.alu64 .mov BpfReg.r0 (.imm 0), .jmpCond .jeq BpfReg.r0 (.imm 0) 1, .exit, .ja (-1)]

theorem decode_spinBesideExit : decodeProgram spinBesideExit = .ok spinBesideExitInsns := by
  decide +kernel

/-- The last instruction only leads to itself. -/
theorem edge_spin {q : ℕ} (h : Edge spinBesideExitInsns 3 q) : q = 3 := by
  obtain ⟨-, insn, hget, hedge⟩ := h
  cases hget
  rcases hedge with ⟨hfall, -⟩ | ⟨off, hoff, htarget⟩
  · cases hfall
  · cases hoff
    exact htarget.unique (show IsTarget 3 (-1) 3 by unfold IsTarget; decide)

theorem reach_spin {q : ℕ} (h : Reach spinBesideExitInsns 3 q) : q = 3 := by
  induction h with
  | refl => rfl
  | tail _ hedge ih =>
    subst ih
    exact edge_spin hedge

/-- `exit_reachable_iff` at `spinBesideExit`: its last instruction is a trap. -/
theorem exit_reachable_iff_spinBesideExit : ∃ pc, Trap (Edge spinBesideExitInsns) pc := by
  have hver : verifyProgram spinBesideExitInsns = .ok 3 := rfl
  have hiff := exit_reachable_iff decode_spinBesideExit hver
  have hno : ¬ ∀ pc < spinBesideExitInsns.length,
      ∃ q, Reach spinBesideExitInsns pc q ∧ spinBesideExitInsns[q]? = some .exit := by
    intro hall
    obtain ⟨q, hreach, hexit⟩ := hall 3 (by decide)
    obtain rfl := reach_spin hreach
    cases hexit
  rw [hiff] at hno
  push Not at hno
  obtain ⟨pc, -, htrap⟩ := hno
  exact ⟨pc, htrap⟩

/-- **An accepted program cannot exit** once it has taken the jump. -/
theorem spinBesideExit_no_exit :
    decodeProgram spinBesideExit = .ok spinBesideExitInsns ∧
      verifyProgram spinBesideExitInsns = .ok 3 ∧ 3 < spinBesideExitInsns.length ∧
      ¬ ∃ q, Reach spinBesideExitInsns 3 q ∧ spinBesideExitInsns[q]? = some .exit := by
  refine ⟨decode_spinBesideExit, rfl, by decide, ?_⟩
  rintro ⟨q, hreach, hexit⟩
  obtain rfl := reach_spin hreach
  cases hexit

end NVMirror
