import NVMirror.JitAarch64.FullWords

/-!
# Runs on the full machine

* `Runs ws c c'`: wherever the words `ws` stand in the code, and whatever surrounds it, they take
  `c` to `c'`; only to it (`Runs.unique`).  Words with an alignment fault lead nowhere
  (`not_runs_of_traps`).
* `Puts ws S c d v`: they put `v` into register `d` and change no register outside `S`.
-/

namespace NVMirror.Aarch64.Full

open Rust Bytes

/-- The words take the first state to the second one, in every environment. -/
def Runs (ws : List U32) (c c' : Cpu) : Prop :=
  ∀ (env : Env) {code : List U8} {pc : ℤ}, CodeAt code pc ws →
    steps (step env code) ⟨c, pc⟩ ws.length = .ok ⟨c', pc + 4 * ws.length⟩

namespace Runs

variable {ws ws' : List U32} {c c' c'' : Cpu}

theorem nil (c : Cpu) : Runs [] c c := by
  intro env code pc _
  simp [steps]

/-- One word. -/
theorem word {w : U32} {i : Instr} (hdecode : decode w = some i)
    (htraps : ∀ env, i.traps env c = false) (hexec : ∀ env pc, i.exec env pc c = c')
    (hdisp : i.displacement c = 4) : Runs [w] c c' := by
  intro env code pc hcode
  show steps (step env code) ⟨c, pc⟩ 1 = .ok ⟨c', pc + 4 * (1 : ℕ)⟩
  rw [steps_one, step_of_fetch env hcode.head hdecode (htraps env), hexec, hdisp]
  rfl

theorem append (h : Runs ws c c') (h' : Runs ws' c' c'') : Runs (ws ++ ws') c c'' := by
  intro env code pc hcode
  rw [List.length_append, steps_trans (h env hcode.take) (h' env hcode.drop), Nat.cast_add, mul_add,
    ← add_assoc]

/-- A line of the machine on registers. -/
theorem line (h : Line ws c c') : Runs ws c c' := by
  induction h with
  | nil c => exact nil c
  | @cons w i ws c c' hdecode hstraight hrest ih =>
    have hword : Runs [w] c (i.exec c) := word (decode_of_base hdecode) (fun _ => rfl)
      (fun _ _ => rfl)
      (Aarch64.Instr.displacement_of_isStraight hstraight c)
    exact hword.append ih

/-- The words lead to one state. -/
theorem unique (h : Runs ws c c') (h' : Runs ws c c'') : c' = c'' := by
  have heq := (h .idle (codeAt_ofWords ws)).symm.trans (h' .idle (codeAt_ofWords ws))
  exact congrArg Machine.toCpu (Except.ok.inj heq)

end Runs

/-- **No run ends behind an alignment fault.** -/
theorem not_runs_of_traps {pre : List U32} {w : U32} {i : Instr} {c c₁ : Cpu}
    (hpre : Runs pre c c₁) (hdecode : decode w = some i) (htraps : i.traps .idle c₁ = true)
    (post : List U32) (c' : Cpu) : ¬ Runs (pre ++ w :: post) c c' := by
  intro hruns
  have hcode := codeAt_ofWords (pre ++ w :: post)
  have hword := step_of_traps .idle hcode.drop.head hdecode htraps
  have hrun := hruns .idle hcode
  rw [List.length_append, steps_add, hpre .idle hcode.take, ok_bind, List.length_cons,
    Nat.add_comm, steps_add, steps_one, hword] at hrun
  cases hrun

/-- The words put `v` into register `d` and change no register outside `S`. -/
def Puts (ws : List U32) (S : Set Reg) (c : Cpu) (d : Reg) (v : U64) : Prop :=
  ∃ c', Runs ws c c' ∧ c'.x d = v ∧ SameOutside S c c'

namespace Puts

variable {ws : List U32} {S : Set Reg} {c : Cpu} {d : Reg} {v v' : U64}

/-- A result on the machine without memory instructions. -/
theorem of_writes (h : Writes ws S c d v) : Puts ws S c d v := by
  obtain ⟨c', hline, hv, hsame⟩ := h
  exact ⟨c', Runs.line hline, hv, hsame⟩

theorem mono {T : Set Reg} (h : Puts ws S c d v) (hST : S ⊆ T) : Puts ws T c d v := by
  obtain ⟨c', hruns, hv, hsame⟩ := h
  exact ⟨c', hruns, hv, hsame.mono hST⟩

/-- No words. -/
theorem nil (c : Cpu) (d : Reg) : Puts [] {d} c d (c.x d) :=
  ⟨c, Runs.nil c, rfl, SameOutside.refl _ c⟩

/-- The words leave one result. -/
theorem iff_eq (h : Puts ws S c d v) : Puts ws S c d v' ↔ v = v' := by
  constructor
  · rintro ⟨c₂, hruns', rfl, -⟩
    obtain ⟨c₁, hruns, rfl, -⟩ := h
    rw [hruns.unique hruns']
  · rintro rfl
    exact h

end Puts

end NVMirror.Aarch64.Full
