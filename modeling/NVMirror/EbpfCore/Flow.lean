import NVMirror.EbpfCore.Verify
import NVMirror.Library.MustAnalysis

/-!
# What one instruction does to control flow and to register initialisation

The vocabulary in which the verifier is specified: the registers an instruction reads and
writes, its effect on the set of initialised registers, its edges in the control-flow graph.
`checkAndUpdateRegs_meets` says in these words what the verifier checks at one instruction.
-/

namespace NVMirror

open Rust

namespace Insn

/-- Branch offset of a jump. -/
def jumpOff : Insn → Option I16
  | .ja off | .jmpCond _ _ _ off | .jmpCond32 _ _ _ off => some off
  | _ => none

/-- Control may continue with the next instruction. -/
def fallsThrough : Insn → Bool
  | .ja _ | .exit => false
  | .alu64 .. | .alu32 .. | .load .. | .storeReg .. | .storeImm .. | .loadImm64 .. | .jmpCond ..
  | .jmpCond32 .. | .call _ | .tailCall | .atomic .. | .endian .. => true

/-- Conditional jump, of either width. -/
def isCondJump : Insn → Bool
  | .jmpCond .. | .jmpCond32 .. => true
  | _ => false

/-- The verifier starts a new block after this instruction. -/
def endsBlock : Insn → Bool
  | .ja _ | .jmpCond .. | .jmpCond32 .. | .exit => true
  | .alu64 .. | .alu32 .. | .load .. | .storeReg .. | .storeImm .. | .loadImm64 .. | .call _
  | .tailCall | .atomic .. | .endian .. => false

end Insn

/-- Registers read through a source operand. -/
def Source.reads : Source → Set BpfReg
  | .imm _ => ∅
  | .reg r => {r}

namespace Insn

/-- Registers an instruction reads: sources, the `dst` of a non-`MOV` operation or byte swap,
memory bases and stored values, branch operands, `R0` at exit. -/
def reads : Insn → Set BpfReg
  | .alu64 op dst src | .alu32 op dst src => src.reads ∪ if op = .mov then ∅ else {dst}
  | .load _ _ src _ => {src}
  | .storeReg _ dst src _ => {dst, src}
  | .storeImm _ dst _ _ => {dst}
  | .loadImm64 .. => ∅
  | .jmpCond _ dst src _ | .jmpCond32 _ dst src _ => insert dst src.reads
  | .ja _ | .call _ | .tailCall => ∅
  | .exit => {BpfReg.r0}
  | .atomic _ _ dst src _ => {dst, src}
  | .endian _ _ dst => {dst}

/-- Register an instruction writes. -/
def writes : Insn → Set BpfReg
  | .alu64 _ dst _ | .alu32 _ dst _ | .load _ dst _ _ | .loadImm64 dst _ | .endian _ _ dst => {dst}
  | .call _ => {BpfReg.r0}
  | _ => ∅

/-- Registers a helper call leaves uninitialised. -/
def callClobbers : Set BpfReg := {BpfReg.r1, BpfReg.r2, BpfReg.r3, BpfReg.r4, BpfReg.r5}

/-- Effect on the set of initialised registers. -/
def transfer (insn : Insn) (I : Set BpfReg) : Set BpfReg :=
  match insn with
  | .call _ => insert BpfReg.r0 I \ callClobbers
  | insn => I ∪ insn.writes

/-- Base register, offset and width of a memory access. -/
def memAccess : Insn → Option (BpfReg × I16 × MemWidth)
  | .load width _ src off => some (src, off, width)
  | .storeReg width dst _ off | .storeImm width dst off _ | .atomic width _ dst _ off =>
    some (dst, off, width)
  | _ => none

theorem transfer_mono (insn : Insn) : Monotone insn.transfer := by
  intro I J h
  cases insn with
  | call _ => exact Set.sdiff_subset_sdiff_left (Set.insert_subset_insert h)
  | _ => exact Set.union_subset_union_left _ h

end Insn

/-- `pc + 1 + off` as an instruction index. -/
def IsTarget (pc : ℕ) (off : I16) (q : ℕ) : Prop := (q : ℤ) = pc + 1 + off.toInt

theorem IsTarget.unique {pc q q' : ℕ} {off : I16} (h : IsTarget pc off q)
    (h' : IsTarget pc off q') : q = q' := by
  unfold IsTarget at h h'
  omega

theorem off_range (off : I16) : -32768 ≤ off.toInt ∧ off.toInt < 32768 := by
  have h1 := BitVec.le_toInt off
  have h2 := BitVec.toInt_lt (x := off)
  norm_num at h1 h2
  exact ⟨h1, h2⟩

/-- A jump that does not overflow goes to its target. -/
theorem jumpPc_of_isTarget {ε : Type} {pc q t : ℕ} {off : I16} (h : jumpPc (ε := ε) pc off = .ok q)
    (ht : IsTarget pc off t) : q = t := by
  unfold IsTarget at ht
  unfold jumpPc at h
  obtain ⟨a, ha, h⟩ := bind_eq_ok.1 h
  obtain ⟨b, hb, h⟩ := bind_eq_ok.1 h
  obtain ⟨c, hc, h⟩ := bind_eq_ok.1 h
  obtain ⟨-, rfl⟩ := toIsize_eq_ok.1 ha
  obtain ⟨-, rfl⟩ := isizeAdd_eq_ok.1 hb
  obtain ⟨hrange, rfl⟩ := isizeAdd_eq_ok.1 hc
  cases h
  rw [asUsize_of_nonneg (by omega) (by omega)]
  omega

theorem jumpPc_eq {ε : Type} {pc t : ℕ} {off : I16} (ht : IsTarget pc off t) (hpc : pc < 2 ^ 62)
    (hlt : t < 2 ^ 62) : jumpPc (ε := ε) pc off = .ok t := by
  unfold IsTarget at ht
  unfold jumpPc
  rw [toIsize_of_lt (by omega), ok_bind, isizeAdd_of_range (by omega), ok_bind,
    isizeAdd_of_range (by omega), ok_bind, asUsize_of_nonneg (by omega) (by omega)]
  congr 1
  omega

/-- Edges of the control-flow graph: to the next instruction, unless the instruction is `Ja` or
`Exit`, and to the jump target. -/
def Edge (insns : List Insn) (pc q : ℕ) : Prop :=
  q < insns.length ∧ ∃ insn, insns[pc]? = some insn ∧
    (insn.fallsThrough ∧ q = pc + 1 ∨ ∃ off, insn.jumpOff = some off ∧ IsTarget pc off q)

/-- Transfer function of the instruction at `pc`. -/
def transferAt (insns : List Insn) (pc : ℕ) (I : Set BpfReg) : Set BpfReg :=
  match insns[pc]? with
  | some insn => insn.transfer I
  | none => I

theorem transferAt_mono (insns : List Insn) (pc : ℕ) : Monotone (transferAt insns pc) := by
  unfold transferAt
  cases insns[pc]? with
  | none => exact monotone_id
  | some insn => exact insn.transfer_mono

/-- Registers initialised at entry. -/
def entryInits : Set BpfReg := {BpfReg.r1, BpfReg.r10}

/-! ### Register files as sets -/

namespace RegFile

/-- The set of initialised registers. -/
def inits (s : RegFile) : Set BpfReg := {r | s.regs r = .init}

theorem isInit_iff (s : RegFile) (r : BpfReg) : s.isInit r = true ↔ r ∈ s.inits := by
  simp [isInit, inits]

@[simp] theorem inits_newEntry : newEntry.inits = entryInits := by
  ext r
  simp only [inits, newEntry, entryInits, Set.mem_ofPred_eq, Function.update_apply,
    Set.mem_insert_iff, Set.mem_singleton_iff]
  split_ifs <;> simp_all

@[simp] theorem inits_markInit (s : RegFile) (r : BpfReg) :
    (s.markInit r).inits = insert r s.inits := by
  ext q
  by_cases h : q = r <;> simp [inits, markInit, Function.update_apply, h]

@[simp] theorem inits_markUninit (s : RegFile) (r : BpfReg) :
    (s.markUninit r).inits = s.inits \ {r} := by
  ext q
  by_cases h : q = r <;> simp [inits, markUninit, Function.update_apply, h]

@[simp] theorem inits_merge (s t : RegFile) : (s.merge t).inits = s.inits ∩ t.inits := by
  ext r
  simp only [inits, merge, Set.mem_ofPred_eq, Set.mem_inter_iff]
  split_ifs with h <;> simp_all

theorem inits_injective : Function.Injective inits := by
  intro s t h
  ext r
  have hr : s.regs r = .init ↔ t.regs r = .init := Set.ext_iff.1 h r
  cases hs : s.regs r <;> cases ht : t.regs r <;> simp_all

/-- A merge changes nothing iff the state was already included. -/
theorem merge_equals_iff (s t : RegFile) : (s.merge t).equals s = true ↔ s.inits ⊆ t.inits := by
  rw [← Set.inter_eq_left, ← inits_merge]
  constructor
  · intro h
    have : (s.merge t).regs = s.regs := by simpa [equals] using h
    rw [RegFile.ext this]
  · intro h
    have := inits_injective h
    simp [equals, this]

end RegFile

/-! ### The check at one instruction -/

/-- What the verifier demands of an instruction when `I` is initialised. -/
structure Insn.Checked (insn : Insn) (I : Set BpfReg) : Prop where
  reads_subset : insn.reads ⊆ I
  not_writes : BpfReg.r10 ∉ insn.writes
  stack : ∀ off width, insn.memAccess = some (BpfReg.r10, off, width) →
    -(stackSize : ℤ) ≤ off.toInt ∧ off.toInt < 0

/-- The errors of the check at `pc`, and what each says about the instruction. -/
def Insn.Faulty (insn : Insn) (pc : ℕ) (I : Set BpfReg) : Fault VerifyError → Prop
  | .err (.uninitializedRegRead p r) => p = pc ∧ r ∈ insn.reads ∧ r ∉ I
  | .err (.writeToR10 p) => p = pc ∧ BpfReg.r10 ∈ insn.writes
  | .err (.stackOutOfBounds p off) =>
    p = pc ∧ ∃ width, insn.memAccess = some (BpfReg.r10, off, width) ∧
      ¬ (-(stackSize : ℤ) ≤ off.toInt ∧ off.toInt < 0)
  | _ => False

section Checks

variable {pc : ℕ} {F : Fault VerifyError → Prop}

theorem checkWriteDst_meets {dst : BpfReg} (hF : dst = BpfReg.r10 → F (.err (.writeToR10 pc))) :
    Meets (checkWriteDst pc dst) (fun _ => dst ≠ BpfReg.r10) F := by
  unfold checkWriteDst
  split_ifs with h
  · exact Meets.fail (hF h)
  · exact Meets.ok h

theorem checkRegRead_meets {r : BpfReg} {s : RegFile}
    (hF : r ∉ s.inits → F (.err (.uninitializedRegRead pc r))) :
    Meets (checkRegRead pc r s) (fun _ => r ∈ s.inits) F := by
  unfold checkRegRead
  split_ifs with h
  · exact Meets.ok ((s.isInit_iff r).1 h)
  · exact Meets.fail (hF fun hr => h ((s.isInit_iff r).2 hr))

theorem checkSourceRead_meets {src : Source} {s : RegFile}
    (hF : ∀ r ∈ src.reads, r ∉ s.inits → F (.err (.uninitializedRegRead pc r))) :
    Meets (checkSourceRead pc src s) (fun _ => src.reads ⊆ s.inits) F := by
  cases src with
  | imm v => exact Meets.ok (Set.empty_subset _)
  | reg r =>
    exact (checkRegRead_meets (hF r rfl)).imp fun _ h => Set.singleton_subset_iff.2 h

theorem checkStackIfFp_meets {base : BpfReg} {off : I16}
    (hF : base = BpfReg.r10 → ¬ (-(stackSize : ℤ) ≤ off.toInt ∧ off.toInt < 0) →
      F (.err (.stackOutOfBounds pc off))) :
    Meets (checkStackIfFp pc base off)
      (fun _ => base = BpfReg.r10 → -(stackSize : ℤ) ≤ off.toInt ∧ off.toInt < 0) F := by
  unfold checkStackIfFp
  split_ifs with hb ho
  · exact Meets.fail (hF hb (by omega))
  · exact Meets.ok fun _ => by omega
  · exact Meets.ok fun h => absurd h hb

end Checks

/-- **The check at one instruction.**  It passes when the instruction is `Checked`, and then
applies the transfer function; its error names a fault of the instruction. -/
theorem checkAndUpdateRegs_meets {insns : List Insn} {pc : ℕ} {insn : Insn} (s : RegFile)
    (h : insns[pc]? = some insn) :
    Meets (checkAndUpdateRegs insns pc s)
      (fun s' => insn.Checked s.inits ∧ s'.inits = insn.transfer s.inits)
      (insn.Faulty pc s.inits) := by
  unfold checkAndUpdateRegs
  rw [index_of_getElem? h, ok_bind]
  cases insn with
  | alu64 op dst src | alu32 op dst src =>
    refine (checkWriteDst_meets fun hd => ⟨rfl, hd.symm⟩).bind fun _ hw => ?_
    refine (checkSourceRead_meets fun r hr hn => ⟨rfl, Or.inl hr, hn⟩).bind fun _ hs => ?_
    by_cases hop : op = .mov
    · subst hop
      refine Meets.ok ⟨⟨by simpa [Insn.reads] using hs, Ne.symm hw, by simp [Insn.memAccess]⟩, ?_⟩
      simp [Insn.transfer, Insn.writes]
    · rw [if_pos hop]
      refine (checkRegRead_meets fun hn => ⟨rfl, Or.inr (by simp [hop]), hn⟩).bind fun _ hd => ?_
      refine Meets.ok ⟨⟨?_, Ne.symm hw, by simp [Insn.memAccess]⟩, ?_⟩
      · simpa [Insn.reads, hop] using Set.insert_subset hd hs
      · simp [Insn.transfer, Insn.writes]
  | load width dst src off =>
    refine (checkWriteDst_meets fun hd => ⟨rfl, hd.symm⟩).bind fun _ hw => ?_
    refine (checkRegRead_meets fun hn => ⟨rfl, rfl, hn⟩).bind fun _ hr => ?_
    refine (checkStackIfFp_meets fun hb ho => ⟨rfl, width, by simp [Insn.memAccess, hb], ho⟩).bind
      fun _ hstack => ?_
    refine Meets.ok ⟨⟨Set.singleton_subset_iff.2 hr, Ne.symm hw, ?_⟩, ?_⟩
    · rintro _ _ ⟨⟩; exact hstack rfl
    · simp [Insn.transfer, Insn.writes]
  | storeReg width dst src off | atomic width op dst src off =>
    refine (checkRegRead_meets fun hn => ⟨rfl, Or.inl rfl, hn⟩).bind fun _ hd => ?_
    refine (checkRegRead_meets fun hn => ⟨rfl, Or.inr rfl, hn⟩).bind fun _ hs => ?_
    refine (checkStackIfFp_meets fun hb ho => ⟨rfl, width, by simp [Insn.memAccess, hb], ho⟩).bind
      fun _ hstack => ?_
    refine Meets.ok ⟨⟨Set.pair_subset hd hs, by simp [Insn.writes], ?_⟩, ?_⟩
    · rintro _ _ ⟨⟩; exact hstack rfl
    · simp [Insn.transfer, Insn.writes]
  | storeImm width dst off imm =>
    refine (checkRegRead_meets fun hn => ⟨rfl, rfl, hn⟩).bind fun _ hd => ?_
    refine (checkStackIfFp_meets fun hb ho => ⟨rfl, width, by simp [Insn.memAccess, hb], ho⟩).bind
      fun _ hstack => ?_
    refine Meets.ok ⟨⟨Set.singleton_subset_iff.2 hd, by simp [Insn.writes], ?_⟩, ?_⟩
    · rintro _ _ ⟨⟩; exact hstack rfl
    · simp [Insn.transfer, Insn.writes]
  | loadImm64 dst imm =>
    refine (checkWriteDst_meets fun hd => ⟨rfl, hd.symm⟩).bind fun _ hw => ?_
    refine Meets.ok ⟨⟨Set.empty_subset _, Ne.symm hw, by simp [Insn.memAccess]⟩, ?_⟩
    simp [Insn.transfer, Insn.writes]
  | jmpCond op dst src off | jmpCond32 op dst src off =>
    refine (checkRegRead_meets fun hn => ⟨rfl, Or.inl rfl, hn⟩).bind fun _ hd => ?_
    refine (checkSourceRead_meets fun r hr hn => ⟨rfl, Or.inr hr, hn⟩).bind fun _ hs => ?_
    refine Meets.ok ⟨⟨Set.insert_subset hd hs, by simp [Insn.writes], by simp [Insn.memAccess]⟩, ?_⟩
    simp [Insn.transfer, Insn.writes]
  | ja off | tailCall =>
    refine Meets.ok ⟨⟨Set.empty_subset _, by simp [Insn.writes], by simp [Insn.memAccess]⟩, ?_⟩
    simp [Insn.transfer, Insn.writes]
  | call funcId =>
    refine Meets.ok ⟨⟨Set.empty_subset _, ?_, by simp [Insn.memAccess]⟩, ?_⟩
    · simp [Insn.writes, BpfReg.r0, BpfReg.r10]
    · simp only [List.foldl_cons, List.foldl_nil, RegFile.inits_markUninit,
        RegFile.inits_markInit, Insn.transfer, Insn.callClobbers, sdiff_sdiff]
      ext r
      simp
      tauto
  | exit =>
    refine (checkRegRead_meets fun hn => ⟨rfl, rfl, hn⟩).bind fun _ hr => ?_
    refine Meets.ok ⟨⟨Set.singleton_subset_iff.2 hr, by simp [Insn.writes],
      by simp [Insn.memAccess]⟩, ?_⟩
    simp [Insn.transfer, Insn.writes]
  | endian toBe width dst =>
    refine (checkWriteDst_meets fun hd => ⟨rfl, hd.symm⟩).bind fun _ hw => ?_
    refine (checkRegRead_meets fun hn => ⟨rfl, rfl, hn⟩).bind fun _ hr => ?_
    refine Meets.ok ⟨⟨Set.singleton_subset_iff.2 hr, Ne.symm hw, by simp [Insn.memAccess]⟩, ?_⟩
    simp [Insn.transfer, Insn.writes]

end NVMirror
