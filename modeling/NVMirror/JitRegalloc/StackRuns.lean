import NVMirror.JitRegalloc.FrameSize
import NVMirror.JitRegalloc.Stretches

/-!
# The stack pointer on a run

The code of a program with a frame moves the stack pointer in prologues and epilogues only, and
nothing else may touch the register of `R10` (`KeepsStack`).  So at every node that accesses memory
the stack pointer is as many frames below its first value as prologues have run, and the register of
`R10` still has its first value (`KeepsStack.stack_eq`).
-/

namespace NVMirror

open Rust Leaders Temporal

variable {σ C : Type} {mk : C → ℤ → σ} {pcOf : σ → ℤ} {cpuOf : σ → C} {sp r10 : C → U64}
  {R : σ → σ → Prop} {W : IrNode → List U32} {ir : IrProgram} {insns : List Insn}
  {nodes : ℕ → List IrNode}

/-- What the code of a program does with the stack pointer and the register of `R10`. -/
structure KeepsStack (mk : C → ℤ → σ) (pcOf : σ → ℤ) (cpuOf : σ → C) (sp r10 : C → U64)
    (R : σ → σ → Prop) (W : IrNode → List U32) (ir : IrProgram) (insns : List Insn)
    (nodes : ℕ → List IrNode) : Prop where
  pcOf_mk : ∀ c pc, pcOf (mk c pc) = pc
  prologue_ne : ir.code[0]? = some (.prologue ir.frameSize) → W (.prologue ir.frameSize) ≠ []
  /-- From the second instruction of a prologue on. -/
  prologue : 0 < ir.frameSize → ir.code[0]? = some (.prologue ir.frameSize) → ∀ c u,
    R (mk c 0) u → Until R (fun m => 0 < pcOf m ∧ AtNode W ir.code 0 (pcOf m))
      (fun m => ∃ c', (sp c' = sp c - BitVec.ofNat 64 ir.frameSize.toNat ∧ r10 c' = r10 c) ∧
        m = atNode mk W ir 1 c') u
  node : ∀ {pc : ℕ} {insn : Insn} {node : IrNode}, insns[pc]? = some insn → insn ≠ .exit →
    nodes pc = [node] → ∀ {j : ℕ}, ir.code[j]? = some node → ∀ c, W node = [] ∨
      Leaves R (fun m => AtNode W ir.code j (pcOf m) ∧
          (node.memAccess ≠ none → sp (cpuOf m) = sp c ∧ r10 (cpuOf m) = r10 c))
        (fun m => ∃ j' c', ir.Next node j j' ∧ (sp c' = sp c ∧ r10 c' = r10 c) ∧
          m = atNode mk W ir j' c')
        (atNode mk W ir j c)
  epilogue : 0 < ir.frameSize → ∀ {j : ℕ}, ir.code[j]? = some (.epilogue ir.frameSize) → ∀ c,
    Leaves R (fun m => AtNode W ir.code j (pcOf m)) (fun m => ∃ c', m = atNode mk W ir (j + 1) c')
      (atNode mk W ir j c)
  ret : ∀ {j : ℕ}, ir.code[j]? = some .ret → ∀ c P,
    Leaves R (fun m => AtNode W ir.code j (pcOf m)) P (atNode mk W ir j c)
  stop : ∀ {j : ℕ}, ir.code[j]? = none → ∀ c P,
    Leaves R (fun m => pcOf m = 4 * (wordPos W ir.code j : ℤ)) P (atNode mk W ir j c)

namespace KeepsStack

/-- After `n` prologues, with `r` in the register of `R10`. -/
def StackAt (sp r10 : C → U64) (ir : IrProgram) (s r : U64) (a : C × ℕ) : Prop :=
  sp a.1 = s - BitVec.ofNat 64 (a.2 * ir.frameSize.toNat) ∧ r10 a.1 = r

/-- At the nodes that access memory it is so. -/
def AtAccesses (pcOf : σ → ℤ) (cpuOf : σ → C) (sp r10 : C → U64) (W : IrNode → List U32)
    (ir : IrProgram) (s r : U64) (a : σ × ℕ) : Prop :=
  ∀ (j : ℕ) (node : IrNode), ir.code[j]? = some node → node.memAccess ≠ none →
    AtNode W ir.code j (pcOf a.1) → StackAt sp r10 ir s r (cpuOf a.1, a.2)

variable {regmap : RegMap} {flags : List Bool} {pcToBb : List BasicBlockId}

/-- **Counted runs** go from place to place. -/
theorem carries (hk : KeepsStack mk pcOf cpuOf sp r10 R W ir insns nodes)
    (h : Lowering insns regmap flags pcToBb nodes ir) (hacc : Accepted insns)
    (hf : 0 < ir.frameSize) (s r : U64) :
    Carries (fun a pc => (mk a.1 pc, a.2)) (Counted R fun m => pcOf m = 0)
      (AtAccesses pcOf cpuOf sp r10 W ir s r) W ir insns nodes (StackAt sp r10 ir s r)
      (StackAt sp r10 ir s r) (fun _ => True) := by
  have hzero := (h.code_zero hacc.ne_nil hf).1
  have hone : 0 < wordPos W ir.code 1 := by
    have hsucc : wordPos W ir.code 1 = _ := wordPos_succ hzero
    have hpos := List.length_pos_iff.2 (hk.prologue_ne hzero)
    omega
  have hpos : ∀ {j : ℕ}, 0 < j → 0 < wordPos W ir.code j := fun hj =>
    hone.trans_le (wordPos_mono hj)
  have hhit : ∀ {j : ℕ}, 0 < j → ∀ m, AtNode W ir.code j (pcOf m) → ¬ pcOf m = 0 := by
    intro j hj m hat heq
    have := hat.1
    have := hpos hj
    omega
  -- nodes that access no memory
  have hother : ∀ {j : ℕ} {node : IrNode}, ir.code[j]? = some node → node.memAccess = none →
      ∀ a : σ × ℕ, AtNode W ir.code j (pcOf a.1) → AtAccesses pcOf cpuOf sp r10 W ir s r a := by
    intro j node hj hno a hat j' node' hj' hmem hat'
    obtain rfl := hat.unique hat'
    cases hj.symm.trans hj'
    exact absurd hno hmem
  constructor
  case prologue =>
    rintro - hj ⟨c, n⟩ ⟨hsp, hr⟩
    have hstart : pcOf (mk c 0) = 0 := hk.pcOf_mk c 0
    have hat : AtNode W ir.code 0 (pcOf (mk c 0)) := by
      rw [hstart]
      refine ⟨le_rfl, ?_⟩
      show (0 : ℤ) < 4 * (wordPos W ir.code 1 : ℤ)
      omega
    refine (Leaves.counted_first (s := mk c 0) hstart (hk.prologue hf hj c) (fun m hm heq => ?_)
      n (hother hj rfl _ hat) fun m hm => hother hj rfl _ hm.2).mono (fun _ hq => hq) ?_
    · have := hm.1
      omega
    · rintro ⟨m, n'⟩ ⟨⟨c', ⟨hsp', hr'⟩, rfl⟩, rfl⟩
      refine ⟨(c', n + 1), ⟨?_, hr'.trans hr⟩, rfl⟩
      dsimp only
      dsimp only at hsp
      rw [hsp', hsp, Nat.succ_mul, ← BitVec.ofNat_add_ofNat]
      exact BitVec.sub_sub _ _ _
  case node =>
    rintro pc insn node hget hexit hns j rfl hj ⟨c, n⟩ ⟨hsp, hr⟩
    have hj0 : 0 < nodePos ir.frameSize nodes pc := by
      rw [nodePos, prologueOf, if_pos hf]
      exact Nat.succ_pos _
    refine (hk.node hget hexit hns hj c).imp_right fun hleaves => ?_
    refine (hleaves.counted (fun m hm => hhit hj0 m hm.1) n).mono ?_ ?_
    · rintro ⟨m, n'⟩ ⟨⟨hat, hmem⟩, rfl⟩ j' node' hj' hmem' hat'
      obtain rfl := hat.unique hat'
      cases hj.symm.trans hj'
      obtain ⟨hsp', hr'⟩ := hmem hmem'
      exact ⟨hsp'.trans hsp, hr'.trans hr⟩
    · rintro ⟨m, n'⟩ ⟨⟨j', c', hnext, ⟨hsp', hr'⟩, rfl⟩, rfl⟩
      refine ⟨j', (c', n'), hnext, ?_, rfl⟩
      rw [ite_self]
      exact ⟨hsp'.trans hsp, hr'.trans hr⟩
  case epilogue =>
    rintro - j hj0 hj ⟨c, n⟩ -
    refine ((hk.epilogue hf hj c).counted (fun m hm => hhit hj0 m hm) n).mono ?_ ?_
    · rintro ⟨m, n'⟩ ⟨hat, -⟩
      exact hother hj rfl _ hat
    · rintro ⟨m, n'⟩ ⟨⟨c', rfl⟩, rfl⟩
      exact ⟨(c', n'), trivial, rfl⟩
  case ret =>
    rintro j ⟨c, n⟩ hj hc P
    have hj0 : 0 < j := (hc.resolve_left fun hno => hno.1 hf).1
    refine ((hk.ret hj c fun _ => False).counted (fun m hm => hhit hj0 m hm) n).mono ?_ ?_
    · rintro ⟨m, n'⟩ ⟨hat, -⟩
      exact hother hj rfl _ hat
    · rintro _ ⟨hfalse, -⟩
      exact hfalse.elim
  case stop =>
    rintro j ⟨c, n⟩ hj hc P
    have hj0 : 0 < j := by
      by_contra hno
      obtain rfl : j = 0 := by omega
      rw [hzero] at hj
      cases hj
    refine ((hk.stop hj c fun _ => False).counted (fun m hm heq => ?_) n).mono ?_ ?_
    · have := hpos hj0
      omega
    · rintro ⟨m, n'⟩ ⟨hend, -⟩ j' node hj' - hat
      -- no node has words behind the last one
      have hlt := (List.getElem?_eq_some_iff.1 hj').1
      have hge := List.getElem?_eq_none_iff.1 hj
      have hle : wordPos W ir.code (j' + 1) ≤ wordPos W ir.code j := wordPos_mono (by omega)
      have := hat.2
      dsimp only at hend this
      omega
    · rintro _ ⟨hfalse, -⟩
      exact hfalse.elim

/-- **At a memory access** the stack pointer is one frame below its first value for each prologue
that has run, and the register of `R10` has its first value. -/
theorem stack_eq (hk : KeepsStack mk pcOf cpuOf sp r10 R W ir insns nodes)
    (h : Lowering insns regmap flags pcToBb nodes ir) (hacc : Accepted insns)
    (hf : 0 < ir.frameSize) {c₀ : C} {m : σ} {n : ℕ}
    (hrun : Relation.ReflTransGen (Counted R fun m => pcOf m = 0) (mk c₀ 0, 0) (m, n)) {j : ℕ}
    {node : IrNode} (hj : ir.code[j]? = some node) (hmem : node.memAccess ≠ none)
    (hat : AtNode W ir.code j (pcOf m)) :
    sp (cpuOf m) = sp c₀ - BitVec.ofNat 64 (n * ir.frameSize.toNat) ∧ r10 (cpuOf m) = r10 c₀ := by
  have hstart : StackAt sp r10 ir (sp c₀) (r10 c₀) (c₀, 0) := by
    refine ⟨?_, rfl⟩
    dsimp only
    rw [Nat.zero_mul]
    exact (BitVec.sub_zero _).symm
  have hall : AtAccesses pcOf cpuOf sp r10 W ir (sp c₀) (r10 c₀) (m, n) := by
    have hstart' : if 0 < ir.frameSize then StackAt sp r10 ir (sp c₀) (r10 c₀) (c₀, 0)
        else StackAt sp r10 ir (sp c₀) (r10 c₀) (c₀, 0) := by
      rw [ite_self]
      exact hstart
    exact (hk.carries h hacc hf (sp c₀) (r10 c₀)).holds h hacc hstart' hrun
  exact hall j node hj hmem hat

end KeepsStack

end NVMirror
