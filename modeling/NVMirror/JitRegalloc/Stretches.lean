import NVMirror.JitIr.Image
import NVMirror.JitRegalloc.FramePaths
import NVMirror.Library.Until

/-!
# Runs through the code of a program

A machine that runs the code of a lowered program is, at any time, at the prologue, at the words of
an instruction, or at the return behind an epilogue (`Place`).  `Carries` says what a target has to
know about each: which property holds at its first word, and that the machine goes on to the next
place.  `Carries.holds` puts the stretches together.

States of the machine are `mk c pc`, for registers and memory `c` and the offset `pc` of the next
word.
-/

namespace NVMirror

open Rust Leaders Temporal

variable {σ C : Type} {mk : C → ℤ → σ} {R : σ → σ → Prop} {Q P : σ → Prop}
  {W : IrNode → List U32} {ir : IrProgram}

/-! ### The words of a node -/

/-- **From one word to the next**, or away through `P`. -/
theorem leaves_words {pos : ℤ} {n : ℕ} (hn : 0 < n) {I : C → Prop}
    (hQ : ∀ k < n, ∀ c, I c → Q (mk c (pos + 4 * k)))
    (hstep : ∀ k < n, ∀ c u, I c → R (mk c (pos + 4 * k)) u →
      P u ∨ ∃ k' < n, ∃ c', I c' ∧ u = mk c' (pos + 4 * k')) {c : C} (hc : I c) :
    Leaves R Q P (mk c pos) := by
  have hclosed : ∀ t, (P t ∨ ∃ k < n, ∃ c, I c ∧ t = mk c (pos + 4 * (k : ℕ))) →
      P t ∨ Q t ∧ ∀ u, R t u → P u ∨ ∃ k < n, ∃ c, I c ∧ u = mk c (pos + 4 * (k : ℕ)) := by
    rintro t (hP | ⟨k, hk, c, hI, rfl⟩)
    · exact Or.inl hP
    · exact Or.inr ⟨hQ k hk c hI, fun u hu => hstep k hk c u hI hu⟩
  have hzero : mk c pos = mk c (pos + 4 * ((0 : ℕ) : ℤ)) := by
    rw [Nat.cast_zero, mul_zero, add_zero]
  rw [hzero]
  exact ⟨hQ 0 hn c hc, fun u hu => Until.of_closed _ hclosed (hstep 0 hn c u hc hu)⟩

/-! ### Places -/

/-- Where a run is: at the prologue, at an instruction, or at the return behind an epilogue. -/
inductive Place
  | prologue
  | insn (pc : ℕ)
  | ret (pc : ℕ)

/-- The number of instructions left in a program of length `n`. -/
def Place.left (n : ℕ) : Place → ℕ
  | .insn pc => n - pc
  | .prologue | .ret _ => 0

variable {insns : List Insn} {regmap : RegMap} {flags : List Bool} {pcToBb : List BasicBlockId}
  {nodes : ℕ → List IrNode} {Start Body Back : C → Prop}

/-- The machine is at the first word of node `j`. -/
def atNode (mk : C → ℤ → σ) (W : IrNode → List U32) (ir : IrProgram) (j : ℕ) (c : C) : σ :=
  mk c (4 * (wordPos W ir.code j : ℤ))

/-- The machine comes to a place. -/
def Arrives (mk : C → ℤ → σ) (W : IrNode → List U32) (ir : IrProgram) (insns : List Insn)
    (nodes : ℕ → List IrNode) (Start Body Back : C → Prop) : Place → σ → Prop
  | .prologue, m => 0 < ir.frameSize ∧ ∃ c, Start c ∧ m = atNode mk W ir 0 c
  | .insn pc, m => ∃ c, Body c ∧ m = atNode mk W ir (nodePos ir.frameSize nodes pc) c
  | .ret pc, m => 0 < ir.frameSize ∧ insns[pc]? = some .exit ∧
    ∃ c, Back c ∧ m = atNode mk W ir (nodePos ir.frameSize nodes pc + 1) c

/-- What the code of a program does between two places: the prologue leads from `Start` to `Body`,
other nodes keep `Body` (or lead back to the prologue), an epilogue leads to `Back`; a return or the
end of the code is where the machine stays. -/
structure Carries (mk : C → ℤ → σ) (R : σ → σ → Prop) (Q : σ → Prop) (W : IrNode → List U32)
    (ir : IrProgram) (insns : List Insn) (nodes : ℕ → List IrNode) (Start Body Back : C → Prop) :
    Prop where
  prologue : 0 < ir.frameSize → ir.code[0]? = some (.prologue ir.frameSize) → ∀ c, Start c →
    Leaves R Q (fun m => ∃ c', Body c' ∧ m = atNode mk W ir 1 c') (atNode mk W ir 0 c)
  node : ∀ {pc : ℕ} {insn : Insn} {node : IrNode}, insns[pc]? = some insn → insn ≠ .exit →
    nodes pc = [node] → ∀ {j : ℕ}, j = nodePos ir.frameSize nodes pc → ir.code[j]? = some node →
    ∀ c, Body c → W node = [] ∨
      Leaves R Q (fun m => ∃ j' c', ir.Next node j j' ∧
        (if j' = 0 ∧ 0 < ir.frameSize then Start c' else Body c') ∧ m = atNode mk W ir j' c')
        (atNode mk W ir j c)
  epilogue : 0 < ir.frameSize → ∀ {j : ℕ}, 0 < j → ir.code[j]? = some (.epilogue ir.frameSize) →
    ∀ c, Body c →
    Leaves R Q (fun m => ∃ c', Back c' ∧ m = atNode mk W ir (j + 1) c') (atNode mk W ir j c)
  ret : ∀ {j : ℕ} {c : C}, ir.code[j]? = some .ret →
    (¬ 0 < ir.frameSize ∧ Body c ∨ 0 < j ∧ Back c) → ∀ P, Leaves R Q P (atNode mk W ir j c)
  stop : ∀ {j : ℕ} {c : C}, ir.code[j]? = none → Body c → ∀ P, Leaves R Q P (atNode mk W ir j c)

namespace Carries

variable (hcar : Carries mk R Q W ir insns nodes Start Body Back)
  (h : Lowering insns regmap flags pcToBb nodes ir) (hacc : Accepted insns)

include hcar h hacc

/-- **From one place to the next.**  A node without words is skipped. -/
theorem next (x : Place) (m : σ) (hx : Arrives mk W ir insns nodes Start Body Back x m) :
    (∃ pc < insns.length, x = .insn pc ∧
      Arrives mk W ir insns nodes Start Body Back (.insn (pc + 1)) m) ∨
      Leaves R Q (fun m => ∃ y, Arrives mk W ir insns nodes Start Body Back y m) m := by
  cases x with
  | prologue =>
    obtain ⟨hf, c, hc, rfl⟩ := hx
    obtain ⟨hj, hone⟩ := h.code_zero hacc.ne_nil hf
    refine Or.inr ((hcar.prologue hf hj c hc).mono (fun _ hq => hq) ?_)
    rintro m ⟨c', hc', rfl⟩
    exact ⟨.insn 0, c', hc', by rw [hone]⟩
  | insn pc =>
    obtain ⟨c, hc, rfl⟩ := hx
    cases hget : insns[pc]? with
    | none => exact Or.inr (hcar.stop (h.code_none hacc.ne_nil hget) hc _)
    | some insn =>
      by_cases hexit : insn = .exit
      · subst hexit
        by_cases hf : 0 < ir.frameSize
        · obtain ⟨hj, -⟩ := h.code_exit hacc.ne_nil hf hget
          have hpos : 0 < nodePos ir.frameSize nodes pc := by
            rw [nodePos, prologueOf, if_pos hf]
            exact Nat.succ_pos _
          refine Or.inr ((hcar.epilogue hf hpos hj c hc).mono (fun _ hq => hq) ?_)
          rintro m ⟨c', hc', rfl⟩
          exact ⟨.ret pc, hf, hget, c', hc', rfl⟩
        · exact Or.inr (hcar.ret (h.code_exit_zero hacc.ne_nil hf hget) (Or.inl ⟨hf, hc⟩) _)
      · obtain ⟨node, hj, -, -, hsucc, hns, -⟩ := h.code_single hacc hget hexit
        rcases hcar.node hget hexit hns rfl hj c hc with hW | hleaves
        · refine Or.inl ⟨pc, (List.getElem?_eq_some_iff.1 hget).1, rfl, c, hc, ?_⟩
          rw [hsucc, atNode, atNode, wordPos_succ hj, hW, List.length_nil, add_zero]
        · refine Or.inr (hleaves.mono (fun _ hq => hq) ?_)
          rintro m ⟨j', c', hnext, hc', rfl⟩
          rcases h.next_pos hacc hget hns hnext with ⟨q, rfl⟩ | ⟨rfl, -⟩
          · refine ⟨.insn q, c', ?_, rfl⟩
            split_ifs at hc' with hzero
            · rw [nodePos, prologueOf, if_pos hzero.2] at hzero
              cases hzero.1
            · exact hc'
          · by_cases hf : 0 < ir.frameSize
            · rw [if_pos ⟨rfl, hf⟩] at hc'
              exact ⟨.prologue, hf, c', hc', rfl⟩
            · rw [if_neg fun hzero => hf hzero.2] at hc'
              refine ⟨.insn 0, c', hc', ?_⟩
              rw [nodePos_zero, prologueOf, if_neg hf]
              rfl
  | ret pc =>
    obtain ⟨hf, hget, c, hc, rfl⟩ := hx
    exact Or.inr (hcar.ret (h.code_exit hacc.ne_nil hf hget).2 (Or.inr ⟨Nat.succ_pos _, hc⟩) _)

/-- **A run from the first word**: `Q` holds of every state. -/
theorem holds {c₀ : C} (hstart : if 0 < ir.frameSize then Start c₀ else Body c₀) {m : σ}
    (hrun : Relation.ReflTransGen R (mk c₀ 0) m) : Q m := by
  have harr : ∃ x, Arrives mk W ir insns nodes Start Body Back x (mk c₀ 0) := by
    split_ifs at hstart with hf
    · exact ⟨.prologue, hf, c₀, hstart, rfl⟩
    · refine ⟨.insn 0, c₀, hstart, ?_⟩
      rw [nodePos_zero, prologueOf, if_neg hf]
      rfl
  obtain ⟨x, hx⟩ := harr
  -- a node without words leaves fewer instructions
  have hnext : ∀ x m, Arrives mk W ir insns nodes Start Body Back x m →
      (∃ y, Arrives mk W ir insns nodes Start Body Back y m ∧
        y.left insns.length < x.left insns.length) ∨
        Leaves R Q (fun m => ∃ y, Arrives mk W ir insns nodes Start Body Back y m) m := by
    intro x m hx
    refine (hcar.next h hacc x m hx).imp_left ?_
    rintro ⟨pc, hlt, rfl, hsucc⟩
    refine ⟨.insn (pc + 1), hsucc, ?_⟩
    simp only [Place.left]
    omega
  obtain ⟨-, hQ⟩ := exists_stretch (Place.left insns.length) (Q := fun _ => Q) hnext hx hrun
  exact hQ

end Carries

end NVMirror
