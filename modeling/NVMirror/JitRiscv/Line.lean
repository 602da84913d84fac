import NVMirror.JitRiscv.Decode
import NVMirror.Library.Until

/-!
# Straight lines of RISC-V words

* `Line ws c c'`: the words `ws` take `c` to `c'`, without a control transfer.
* `Line.leaves`: where they stand in the code, the machine runs through them, in any environments.
* `Stays E I ws`: every word leads to another one of them or behind them, and keeps `I`.
* `Touches ws S`: every word is straight and changes no register outside `S` and no memory;
  `Alters ws S` leaves out memory.
* `Writes ws S c d v`: they put `v` into register `d` and change no register outside `S`.
-/

namespace NVMirror.Riscv

open Rust Bytes Temporal

/-! ### Registers -/

namespace Cpu

variable (c : Cpu) {r r' : Reg} (v : U64)

theorem get_of_ne (h : r ≠ 0) : c.get r = c.x r := if_neg h

@[simp] theorem get_zero : c.get 0 = 0 := rfl

@[simp] theorem set_x_self (h : r ≠ 0) : (c.set r v).x r = v := by
  rw [set, if_neg h]
  exact Function.update_self r v c.x

@[simp] theorem set_x_of_ne (h : r' ≠ r) : (c.set r v).x r' = c.x r' := by
  unfold set
  split_ifs
  · rfl
  · exact Function.update_of_ne h v c.x

@[simp] theorem set_mem : (c.set r v).mem = c.mem := by
  unfold set
  split_ifs <;> rfl

theorem set_zero : c.set 0 v = c := rfl

end Cpu

/-- The states differ at most in the registers of `S`, and in the reservation. -/
structure SameOutside (S : Set Reg) (c c' : Cpu) : Prop where
  x : ∀ r, r ∉ S → c'.x r = c.x r
  mem : c'.mem = c.mem

namespace SameOutside

variable {S T : Set Reg} {c c' c'' : Cpu}

theorem refl (S : Set Reg) (c : Cpu) : SameOutside S c c := ⟨fun _ _ => rfl, rfl⟩

theorem trans (h : SameOutside S c c') (h' : SameOutside S c' c'') : SameOutside S c c'' :=
  ⟨fun r hr => (h'.x r hr).trans (h.x r hr), h'.mem.trans h.mem⟩

theorem mono (h : SameOutside S c c') (hST : S ⊆ T) : SameOutside T c c' :=
  ⟨fun r hr => h.x r fun hS => hr (hST hS), h.mem⟩

theorem set (c : Cpu) (r : Reg) (v : U64) : SameOutside {r} c (c.set r v) :=
  ⟨fun _ hr => c.set_x_of_ne v hr, c.set_mem v⟩

end SameOutside

/-! ### Lines -/

/-- The words take the first state to the second one, without a control transfer. -/
inductive Line : List U32 → Cpu → Cpu → Prop
  | nil (c : Cpu) : Line [] c c
  | cons {w : U32} {i : Instr} {ws : List U32} {c c' : Cpu} (hdecode : decode w = some i)
      (hstraight : i.isStraight) (hrest : Line ws (i.effect c) c') : Line (w :: ws) c c'

namespace Line

variable {ws ws' : List U32} {c c' c'' : Cpu}

theorem word {w : U32} {i : Instr} (hdecode : decode w = some i) (hstraight : i.isStraight)
    (c : Cpu) : Line [w] c (i.effect c) :=
  cons hdecode hstraight (nil _)

theorem append (h : Line ws c c') (h' : Line ws' c' c'') : Line (ws ++ ws') c c'' := by
  induction h with
  | nil c => exact h'
  | cons hdecode hstraight hrest ih => exact cons hdecode hstraight (ih h')

end Line

/-! ### Steps -/

/-- A step in one of the environments of `E`. -/
def Moves (E : Env → Prop) (code : List U8) (m m' : Machine) : Prop :=
  ∃ env, E env ∧ step env code m = .ok m'

variable {E : Env → Prop} {code : List U8} {pc : ℤ} {w : U32} {i : Instr} {c : Cpu} {m' : Machine}

theorem step_eq (env : Env) (hfetch : fetchU32 code pc = some w) (hdecode : decode w = some i)
    (c : Cpu) : step env code ⟨c, pc⟩ =
      if i.traps env c then panic else .ok ⟨i.exec env pc c, pc + i.displacement c⟩ := by
  unfold step
  rw [hfetch]
  dsimp only
  rw [hdecode]
  rfl

/-- One step. -/
theorem step_of_fetch (env : Env) (hfetch : fetchU32 code pc = some w)
    (hdecode : decode w = some i) (htraps : i.traps env c = false) :
    step env code ⟨c, pc⟩ = .ok ⟨i.exec env pc c, pc + i.displacement c⟩ := by
  rw [step_eq env hfetch hdecode, htraps]
  rfl

/-- An exception. -/
theorem step_of_traps (env : Env) (hfetch : fetchU32 code pc = some w)
    (hdecode : decode w = some i) (htraps : i.traps env c = true) :
    step env code ⟨c, pc⟩ = panic := by
  rw [step_eq env hfetch hdecode, if_pos htraps]

/-- A straight word. -/
theorem step_straight (env : Env) (hfetch : fetchU32 code pc = some w)
    (hdecode : decode w = some i) (hstraight : i.isStraight) (c : Cpu) :
    step env code ⟨c, pc⟩ = .ok ⟨i.effect c, pc + 4⟩ := by
  rw [step_of_fetch env hfetch hdecode (Instr.traps_of_isStraight hstraight env c),
    Instr.exec_of_isStraight hstraight, Instr.displacement_of_isStraight hstraight]

/-- What a step does. -/
theorem Moves.eq (h : Moves E code ⟨c, pc⟩ m') (hfetch : fetchU32 code pc = some w)
    (hdecode : decode w = some i) :
    ∃ env, E env ∧ m' = ⟨i.exec env pc c, pc + i.displacement c⟩ := by
  obtain ⟨env, hE, hstep⟩ := h
  cases htraps : i.traps env c with
  | true =>
    rw [step_of_traps env hfetch hdecode htraps] at hstep
    cases hstep
  | false =>
    rw [step_of_fetch env hfetch hdecode htraps] at hstep
    exact ⟨env, hE, (Except.ok.inj hstep).symm⟩

theorem Moves.eq_straight (h : Moves E code ⟨c, pc⟩ m') (hfetch : fetchU32 code pc = some w)
    (hdecode : decode w = some i) (hstraight : i.isStraight) : m' = ⟨i.effect c, pc + 4⟩ := by
  obtain ⟨env, -, rfl⟩ := h.eq hfetch hdecode
  rw [Instr.exec_of_isStraight hstraight, Instr.displacement_of_isStraight hstraight]

/-- A word of a line is no return. -/
theorem not_atRet_of_fetch (hfetch : fetchU32 code pc = some w) (hdecode : decode w = some i)
    (hi : i ≠ .jalr 0 1 0) (c : Cpu) : ¬ AtRet code ⟨c, pc⟩ := by
  intro hret
  unfold AtRet at hret
  rw [hfetch, Option.bind_some, hdecode] at hret
  exact hi (Option.some.inj hret)

/-- **The machine runs through a line.** -/
theorem Line.until {R : Machine → Machine → Prop} (hR : ∀ m m', R m m' → Moves E code m m')
    {ws : List U32} {c c' : Cpu} (h : Line ws c c') (hcode : CodeAt code pc ws)
    {Q P : Machine → Prop}
    (hQ : ∀ (k : ℕ) (c : Cpu), k < ws.length → ¬ AtRet code ⟨c, pc + 4 * k⟩ → Q ⟨c, pc + 4 * k⟩)
    (hP : P ⟨c', pc + 4 * ws.length⟩) : Until R Q P ⟨c, pc⟩ := by
  induction h generalizing pc with
  | nil c =>
    refine Until.now ?_
    rwa [List.length_nil, Nat.cast_zero, mul_zero, add_zero] at hP
  | @cons w i ws c c' hdecode hstraight hrest ih =>
    have hfetch := hcode.head
    have hne : i ≠ .jalr 0 1 0 := by
      rintro rfl
      cases hstraight
    refine Leaves.until ⟨?_, fun m hm => ?_⟩
    · have h0 := hQ 0 c (by simp)
      rw [Nat.cast_zero, mul_zero, add_zero] at h0
      exact h0 (not_atRet_of_fetch hfetch hdecode hne c)
    · rw [(hR _ _ hm).eq_straight hfetch hdecode hstraight]
      have hnext : ∀ k : ℕ, pc + 4 * ((k + 1 : ℕ) : ℤ) = pc + 4 + 4 * (k : ℤ) := by
        intro k
        push_cast
        ring
      refine ih (@CodeAt.drop _ _ [w] _ hcode) (fun k c hk => ?_) ?_
      · rw [← hnext]
        exact hQ (k + 1) c (Nat.succ_lt_succ hk)
      · rw [← hnext]
        exact hP

/-- A line that is not empty. -/
theorem Line.leaves {R : Machine → Machine → Prop} (hR : ∀ m m', R m m' → Moves E code m m')
    {ws : List U32} {c c' : Cpu} (h : Line ws c c') (hcode : CodeAt code pc ws) (hne : ws ≠ [])
    {Q P : Machine → Prop}
    (hQ : ∀ (k : ℕ) (c : Cpu), k < ws.length → ¬ AtRet code ⟨c, pc + 4 * k⟩ → Q ⟨c, pc + 4 * k⟩)
    (hP : P ⟨c', pc + 4 * ws.length⟩) : Leaves R Q P ⟨c, pc⟩ := by
  have hlen := List.length_pos_iff.2 hne
  have huntil : Until R Q (fun m => P m ∧ m.pc = pc + 4 * ws.length) ⟨c, pc⟩ :=
    h.until hR hcode hQ ⟨hP, rfl⟩
  exact huntil.leaves_of_not (fun hend => by have := hend.2; dsimp only at this; omega)
    fun _ hend => hend.1

/-- **The machine makes the steps of a line.** -/
theorem Line.steps (env : Env) {ws : List U32} {c c' : Cpu} (h : Line ws c c')
    (hcode : CodeAt code pc ws) :
    steps (step env code) ⟨c, pc⟩ ws.length = .ok ⟨c', pc + 4 * ws.length⟩ := by
  induction h generalizing pc with
  | nil c => simp [Rust.steps]
  | @cons w i ws c c' hdecode hstraight hrest ih =>
    have hstep : Rust.steps (step env code) ⟨c, pc⟩ 1 = .ok ⟨i.effect c, pc + 4⟩ := by
      rw [steps_one, step_straight env hcode.head hdecode hstraight]
    rw [List.length_cons, Nat.add_comm, steps_trans hstep (ih (@CodeAt.drop _ _ [w] _ hcode)),
      Nat.cast_add, Nat.cast_one, mul_add, mul_one, ← add_assoc]

/-- The words lead to one state. -/
theorem Line.unique {ws : List U32} {c c₁ c₂ : Cpu} (h₁ : Line ws c c₁) (h₂ : Line ws c c₂) :
    c₁ = c₂ := by
  have h := (h₁.steps .idle (codeAt_ofWords ws)).symm.trans (h₂.steps .idle (codeAt_ofWords ws))
  exact congrArg Machine.toCpu (Except.ok.inj h)

/-- **A run through a line.** -/
theorem Line.run {R : Machine → Machine → Prop} {env : Env} {ws : List U32} {c c' : Cpu}
    (h : Line ws c c') (hcode : CodeAt code pc ws)
    (hR : ∀ m m', pc ≤ m.pc → m'.pc = m.pc + 4 → step env code m = .ok m' → R m m') :
    Relation.ReflTransGen R ⟨c, pc⟩ ⟨c', pc + 4 * ws.length⟩ := by
  induction h generalizing pc with
  | nil c =>
    rw [List.length_nil, Nat.cast_zero, mul_zero, add_zero]
  | @cons w i ws c c' hdecode hstraight hrest ih =>
    have hstep := step_straight env hcode.head hdecode hstraight c
    have hend : pc + 4 * ((w :: ws).length : ℤ) = pc + 4 + 4 * (ws.length : ℤ) := by
      rw [List.length_cons]
      push_cast
      ring
    rw [hend]
    exact Relation.ReflTransGen.head (hR _ _ le_rfl rfl hstep)
      (ih (@CodeAt.drop _ _ [w] _ hcode) fun m m' hm => hR m m' (by omega))

/-! ### Words that keep a property -/

/-- In the environments of `E`, every word keeps `I` and leads to another one or behind the last
one.  None is a return. -/
def Stays (E : Env → Prop) (I : Cpu → Prop) (ws : List U32) : Prop :=
  ∀ (k : ℕ) (w : U32), ws[k]? = some w → ∃ i, decode w = some i ∧ i ≠ .jalr 0 1 0 ∧
    ∀ (env : Env) (pc : ℤ) (c : Cpu), E env → I c → I (i.exec env pc c) ∧
      ∃ k' ≤ ws.length, 4 * (k : ℤ) + i.displacement c = 4 * (k' : ℤ)

theorem Stays.nil (E : Env → Prop) (I : Cpu → Prop) : Stays E I [] := fun k w hk => by cases hk

/-- One word. -/
theorem Stays.word {I : Cpu → Prop} (hdecode : decode w = some i) (hne : i ≠ .jalr 0 1 0)
    (hexec : ∀ env pc c, I c → I (i.exec env pc c)) (hdisp : ∀ c, i.displacement c = 4) :
    Stays E I [w] := by
  intro k w' hk
  obtain ⟨rfl, rfl⟩ : k = 0 ∧ w = w' := by simpa [List.getElem?_singleton] using hk
  refine ⟨i, hdecode, hne, fun env pc c _ hc => ⟨hexec env pc c hc, 1, le_rfl, ?_⟩⟩
  rw [hdisp]
  rfl

theorem Stays.append {I : Cpu → Prop} {ws ws' : List U32} (h : Stays E I ws)
    (h' : Stays E I ws') : Stays E I (ws ++ ws') := by
  intro k w hk
  rw [List.length_append]
  rcases lt_or_ge k ws.length with hlt | hge
  · rw [List.getElem?_append_left hlt] at hk
    obtain ⟨i, hdecode, hne, hword⟩ := h k w hk
    refine ⟨i, hdecode, hne, fun env pc c hE hc => ?_⟩
    obtain ⟨hI, k', hk', hdisp⟩ := hword env pc c hE hc
    exact ⟨hI, k', by omega, hdisp⟩
  · rw [List.getElem?_append_right hge] at hk
    obtain ⟨i, hdecode, hne, hword⟩ := h' _ w hk
    refine ⟨i, hdecode, hne, fun env pc c hE hc => ?_⟩
    obtain ⟨hI, k', hk', hdisp⟩ := hword env pc c hE hc
    exact ⟨hI, ws.length + k', by omega, by omega⟩

/-- From one of the words on. -/
theorem Stays.until_from {R : Machine → Machine → Prop} (hR : ∀ m m', R m m' → Moves E code m m')
    {I : Cpu → Prop} {ws : List U32} (h : Stays E I ws) (hcode : CodeAt code pc ws)
    {Q P : Machine → Prop} (hQ : ∀ (k : ℕ) (c : Cpu), k < ws.length → I c →
      ¬ AtRet code ⟨c, pc + 4 * k⟩ → Q ⟨c, pc + 4 * k⟩)
    (hP : ∀ c, I c → P ⟨c, pc + 4 * ws.length⟩) {k : ℕ} (hk : k ≤ ws.length) {c : Cpu} (hc : I c) :
    Until R Q P ⟨c, pc + 4 * k⟩ := by
  refine Until.of_closed (fun m => ∃ (k : ℕ) (c : Cpu), k ≤ ws.length ∧ I c ∧
    m = ⟨c, pc + 4 * k⟩) ?_ ⟨k, c, hk, hc, rfl⟩
  rintro m ⟨k, c, hk, hc, rfl⟩
  rcases Nat.eq_or_lt_of_le hk with rfl | hlt
  · exact Or.inl (hP c hc)
  · obtain ⟨i, hdecode, hne, hword⟩ := h k _ (List.getElem?_eq_getElem hlt)
    have hfetch := hcode k _ (List.getElem?_eq_getElem hlt)
    refine Or.inr ⟨hQ k c hlt hc (not_atRet_of_fetch hfetch hdecode hne c), fun u hu => ?_⟩
    obtain ⟨env, hE, rfl⟩ := (hR _ _ hu).eq hfetch hdecode
    obtain ⟨hI, k', hk', hdisp⟩ := hword env (pc + 4 * k) c hE hc
    refine ⟨k', _, hk', hI, ?_⟩
    rw [add_assoc, hdisp]

theorem Stays.until {R : Machine → Machine → Prop} (hR : ∀ m m', R m m' → Moves E code m m')
    {I : Cpu → Prop} {ws : List U32} (h : Stays E I ws) (hcode : CodeAt code pc ws)
    {Q P : Machine → Prop} (hQ : ∀ (k : ℕ) (c : Cpu), k < ws.length → I c →
      ¬ AtRet code ⟨c, pc + 4 * k⟩ → Q ⟨c, pc + 4 * k⟩)
    (hP : ∀ c, I c → P ⟨c, pc + 4 * ws.length⟩) {c : Cpu} (hc : I c) :
    Until R Q P ⟨c, pc⟩ := by
  have h0 := h.until_from hR hcode hQ hP (Nat.zero_le _) hc
  rwa [Nat.cast_zero, mul_zero, add_zero] at h0

/-- **The machine runs through the words**, or stays among them forever. -/
theorem Stays.leaves {R : Machine → Machine → Prop} (hR : ∀ m m', R m m' → Moves E code m m')
    {I : Cpu → Prop} {ws : List U32} (h : Stays E I ws) (hcode : CodeAt code pc ws) (hne : ws ≠ [])
    {Q P : Machine → Prop} (hQ : ∀ (k : ℕ) (c : Cpu), k < ws.length → I c →
      ¬ AtRet code ⟨c, pc + 4 * k⟩ → Q ⟨c, pc + 4 * k⟩)
    (hP : ∀ c, I c → P ⟨c, pc + 4 * ws.length⟩) {c : Cpu} (hc : I c) :
    Leaves R Q P ⟨c, pc⟩ := by
  have hlen := List.length_pos_iff.2 hne
  have huntil : Until R Q (fun m => P m ∧ m.pc = pc + 4 * ws.length) ⟨c, pc⟩ :=
    h.until hR hcode hQ (fun c hc => ⟨hP c hc, rfl⟩) hc
  exact huntil.leaves_of_not (fun hend => by have := hend.2; dsimp only at this; omega)
    fun _ hend => hend.1

/-! ### What straight words change -/

/-- Every word is straight, and its effect is in the relation. -/
def Effects (K : Cpu → Cpu → Prop) (ws : List U32) : Prop :=
  ∀ w ∈ ws, ∃ i, decode w = some i ∧ i.isStraight ∧ ∀ c, K c (i.effect c)

/-- Every word is straight and changes no register outside `S` and no memory. -/
def Touches (ws : List U32) (S : Set Reg) : Prop := Effects (SameOutside S) ws

/-- Every word is straight and changes no register outside `S`. -/
def Alters (ws : List U32) (S : Set Reg) : Prop :=
  Effects (fun c c' => ∀ r, r ∉ S → c'.x r = c.x r) ws

variable {K K' : Cpu → Cpu → Prop} {ws ws' : List U32} {S T : Set Reg}

namespace Effects

theorem nil (K : Cpu → Cpu → Prop) : Effects K [] := fun w hw => by cases hw

theorem word (hdecode : decode w = some i) (hstraight : i.isStraight)
    (heffect : ∀ c, K c (i.effect c)) : Effects K [w] := by
  intro w' hw'
  rw [List.mem_singleton.1 hw']
  exact ⟨i, hdecode, hstraight, heffect⟩

theorem append (h : Effects K ws) (h' : Effects K ws') : Effects K (ws ++ ws') := by
  intro w hw
  rcases List.mem_append.1 hw with hw | hw
  · exact h w hw
  · exact h' w hw

theorem mono (h : Effects K ws) (hK : ∀ c c', K c c' → K' c c') : Effects K' ws := by
  intro w hw
  obtain ⟨i, hdecode, hstraight, heffect⟩ := h w hw
  exact ⟨i, hdecode, hstraight, fun c => hK _ _ (heffect c)⟩

/-- What the effects keep. -/
theorem stays (h : Effects K ws) {I : Cpu → Prop} (hI : ∀ c c', K c c' → I c → I c') :
    Stays E I ws := by
  intro k w hk
  obtain ⟨i, hdecode, hstraight, heffect⟩ := h w (List.mem_of_getElem? hk)
  refine ⟨i, hdecode, ?_, fun env pc c _ hc => ⟨?_, k + 1, ?_, ?_⟩⟩
  · rintro rfl
    cases hstraight
  · rw [Instr.exec_of_isStraight hstraight]
    exact hI _ _ (heffect c) hc
  · exact (List.getElem?_eq_some_iff.1 hk).1
  · rw [Instr.displacement_of_isStraight hstraight]
    push_cast
    ring

end Effects

theorem Touches.append (h : Touches ws S) (h' : Touches ws' S) : Touches (ws ++ ws') S :=
  Effects.append h h'

theorem Touches.mono (h : Touches ws S) (hST : S ⊆ T) : Touches ws T :=
  Effects.mono h fun _ _ hsame => hsame.mono hST

theorem Touches.alters (h : Touches ws S) : Alters ws S := Effects.mono h fun _ _ hsame => hsame.x

/-- An instruction that only writes a register. -/
theorem touches_word (hdecode : decode w = some i) (hstraight : i.isStraight) {d : Reg}
    (heffect : ∀ c, ∃ v, i.effect c = c.set d v) : Touches [w] {d} := by
  refine Effects.word hdecode hstraight fun c => ?_
  obtain ⟨v, hv⟩ := heffect c
  rw [hv]
  exact SameOutside.set c d v

/-- An instruction that writes no register. -/
theorem alters_word (hdecode : decode w = some i) (hstraight : i.isStraight)
    (heffect : ∀ c, (i.effect c).x = c.x) : Alters [w] S :=
  Effects.word hdecode hstraight fun c r _ => congrFun (heffect c) r

/-! ### Results in a register -/

/-- The words put `v` into register `d` and change no register outside `S`. -/
def Writes (ws : List U32) (S : Set Reg) (c : Cpu) (d : Reg) (v : U64) : Prop :=
  ∃ c', Line ws c c' ∧ c'.x d = v ∧ SameOutside S c c'

namespace Writes

variable {d d' : Reg} {v v' : U64}

theorem mono (h : Writes ws S c d v) (hST : S ⊆ T) : Writes ws T c d v := by
  obtain ⟨c', hline, hv, hsame⟩ := h
  exact ⟨c', hline, hv, hsame.mono hST⟩

/-- An instruction that only writes a register. -/
theorem word (hdecode : decode w = some i) (hstraight : i.isStraight) (hd : d ≠ 0)
    (heffect : i.effect c = c.set d v) : Writes [w] {d} c d v := by
  refine ⟨_, Line.word hdecode hstraight c, ?_, ?_⟩
  · rw [heffect, c.set_x_self v hd]
  · rw [heffect]
    exact SameOutside.set c d v

/-- First one result, then another one that depends on it. -/
theorem append (h : Writes ws S c d v)
    (h' : ∀ c', c'.x d = v → SameOutside S c c' → Writes ws' S c' d' v') :
    Writes (ws ++ ws') S c d' v' := by
  obtain ⟨c₁, hline, hv, hsame⟩ := h
  obtain ⟨c₂, hline', hv', hsame'⟩ := h' c₁ hv hsame
  exact ⟨c₂, hline.append hline', hv', hsame.trans hsame'⟩

/-- The words leave one result. -/
theorem unique (h : Writes ws S c d v) (h' : Writes ws T c d v') : v = v' := by
  obtain ⟨c₁, hline, rfl, -⟩ := h
  obtain ⟨c₂, hline', rfl, -⟩ := h'
  rw [hline.unique hline']

theorem iff_eq (h : Writes ws S c d v) : Writes ws S c d v' ↔ v = v' := by
  constructor
  · exact h.unique
  · rintro rfl
    exact h

end Writes

end NVMirror.Riscv
