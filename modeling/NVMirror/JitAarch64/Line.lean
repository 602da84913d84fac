import NVMirror.JitAarch64.Decode

/-!
# Straight lines of words

* `Line ws c c'`: the words `ws` take `c` to `c'`, without a branch.
* `Line.steps`: where they stand in the code, the machine runs through them (`Runs`).
* `Writes ws S c d v`: they put `v` into register `d` and change no register outside `S`.
* `compare_flags`: what the flags say after a comparison.
-/

namespace NVMirror.Aarch64

open Rust Bytes

/-! ### Registers -/

namespace Cpu

variable (c : Cpu) {r r' : Reg} (v : U64)

@[simp] theorem setSp_x_self : (c.setSp r v).x r = v := by
  simp [setSp]

@[simp] theorem setSp_x_of_ne (h : r' ≠ r) : (c.setSp r v).x r' = c.x r' := by
  simp [setSp, h]

@[simp] theorem setSp_mem : (c.setSp r v).mem = c.mem := rfl

@[simp] theorem set_x_self (h : r ≠ 31) : (c.set r v).x r = v := by
  rw [set, if_neg h, setSp_x_self]

@[simp] theorem set_x_of_ne (h : r' ≠ r) : (c.set r v).x r' = c.x r' := by
  unfold set
  split_ifs
  · rfl
  · exact c.setSp_x_of_ne v h

@[simp] theorem set_mem : (c.set r v).mem = c.mem := by
  unfold set
  split_ifs <;> rfl

@[simp] theorem set_load64 (a : U64) : (c.set r v).load64 a = c.load64 a := by
  rw [load64, set_mem, load64]

theorem get_true (h : r ≠ 31) : c.get true r = c.x r := by
  rw [get, if_neg h]
  exact BitVec.setWidth_eq _

theorem get_false (h : r ≠ 31) : c.get false r = (c.x r).setWidth 32 := by
  rw [get, if_neg h]
  rfl

theorem get_zero (sf : Bool) : c.get sf 31 = 0 := by
  cases sf <;> rfl

end Cpu

/-- The states differ at most in the registers of `S` and in the flags. -/
structure SameOutside (S : Set Reg) (c c' : Cpu) : Prop where
  x : ∀ r, r ∉ S → c'.x r = c.x r
  mem : c'.mem = c.mem

namespace SameOutside

variable {S T : Set Reg} {c c' c'' : Cpu}

theorem refl (S : Set Reg) (c : Cpu) : SameOutside S c c := ⟨fun _ _ => rfl, rfl⟩

theorem trans (h : SameOutside S c c') (h' : SameOutside S c' c'') : SameOutside S c c'' :=
  ⟨fun r hr => (h'.x r hr).trans (h.x r hr), h'.mem.trans h.mem⟩

theorem mono (h : SameOutside S c c') (hST : S ⊆ T) : SameOutside T c c' :=
  ⟨fun r hr => h.x r fun hS => hr (hST hS), h.mem⟩

theorem set (c : Cpu) (r : Reg) (v : U64) : SameOutside {r} c (c.set r v) :=
  ⟨fun _ hr => c.set_x_of_ne v hr, c.set_mem v⟩

end SameOutside

/-! ### Lines -/

/-- The words take the first state to the second one, without a branch. -/
inductive Line : List U32 → Cpu → Cpu → Prop
  | nil (c : Cpu) : Line [] c c
  | cons {w : U32} {i : Instr} {ws : List U32} {c c' : Cpu} (hdecode : decode w = some i)
      (hstraight : i.isStraight) (hrest : Line ws (i.exec c) c') : Line (w :: ws) c c'

namespace Line

variable {ws ws' : List U32} {c c' c'' : Cpu}

theorem word {w : U32} {i : Instr} (hdecode : decode w = some i) (hstraight : i.isStraight)
    (c : Cpu) : Line [w] c (i.exec c) :=
  cons hdecode hstraight (nil _)

theorem append (h : Line ws c c') (h' : Line ws' c' c'') : Line (ws ++ ws') c c'' := by
  induction h with
  | nil c => exact h'
  | cons hdecode hstraight hrest ih => exact cons hdecode hstraight (ih h')

end Line

/-- One step. -/
theorem step_of_fetch {code : List U8} {pc : ℤ} {w : U32} {i : Instr}
    (hfetch : fetchU32 code pc = some w) (hdecode : decode w = some i) (c : Cpu) :
    step code ⟨c, pc⟩ = .ok ⟨i.exec c, pc + i.displacement c⟩ := by
  unfold step
  rw [hfetch]
  dsimp only
  rw [hdecode]
  rfl

/-- **The machine runs through a line.** -/
theorem Line.steps {code : List U8} {ws : List U32} {c c' : Cpu} (h : Line ws c c') {pc : ℤ}
    (hcode : CodeAt code pc ws) :
    steps (step code) ⟨c, pc⟩ ws.length = .ok ⟨c', pc + 4 * ws.length⟩ := by
  induction h generalizing pc with
  | nil c => simp [Rust.steps]
  | @cons w i ws c c' hdecode hstraight hrest ih =>
    have hstep : Rust.steps (step code) ⟨c, pc⟩ 1 = .ok ⟨i.exec c, pc + 4⟩ := by
      rw [steps_one, step_of_fetch hcode.head hdecode, Instr.displacement_of_isStraight hstraight]
    rw [List.length_cons, Nat.add_comm, steps_trans hstep (ih (@CodeAt.drop _ _ [w] _ hcode)),
      Nat.cast_add, Nat.cast_one, mul_add, mul_one, ← add_assoc]

/-- The words take the first state to the second one wherever they stand in the code. -/
def Runs (ws : List U32) (c c' : Cpu) : Prop :=
  ∀ {code : List U8} {pc : ℤ}, CodeAt code pc ws →
    steps (step code) ⟨c, pc⟩ ws.length = .ok ⟨c', pc + 4 * ws.length⟩

theorem Line.runs {ws : List U32} {c c' : Cpu} (h : Line ws c c') : Runs ws c c' :=
  fun hcode => h.steps hcode

/-- The words lead to one state. -/
theorem Runs.unique {ws : List U32} {c c₁ c₂ : Cpu} (h₁ : Runs ws c c₁) (h₂ : Runs ws c c₂) :
    c₁ = c₂ := by
  have h := (h₁ (codeAt_ofWords ws)).symm.trans (h₂ (codeAt_ofWords ws))
  exact congrArg Machine.toCpu (Except.ok.inj h)

/-! ### Results in a register -/

/-- The words put `v` into register `d` and change no register outside `S`. -/
def Writes (ws : List U32) (S : Set Reg) (c : Cpu) (d : Reg) (v : U64) : Prop :=
  ∃ c', Line ws c c' ∧ c'.x d = v ∧ SameOutside S c c'

theorem Writes.mono {ws : List U32} {S T : Set Reg} {c : Cpu} {d : Reg} {v : U64}
    (h : Writes ws S c d v) (hST : S ⊆ T) : Writes ws T c d v := by
  obtain ⟨c', hline, hv, hsame⟩ := h
  exact ⟨c', hline, hv, hsame.mono hST⟩

/-- An instruction that only writes a register. -/
theorem Writes.word {w : U32} {i : Instr} (hdecode : decode w = some i) (hstraight : i.isStraight)
    {d : Reg} (hd : d ≠ 31) {c : Cpu} {v : U64} (hexec : i.exec c = c.set d v) :
    Writes [w] {d} c d v := by
  refine ⟨_, Line.word hdecode hstraight c, ?_, ?_⟩
  · rw [hexec, Cpu.set_x_self c v hd]
  · rw [hexec]
    exact SameOutside.set c d v

/-- First one result, then another one that depends on it. -/
theorem Writes.append {ws ws' : List U32} {S T : Set Reg} {c : Cpu} {d d' : Reg} {v v' : U64}
    (h : Writes ws S c d v) (hST : S ⊆ T)
    (h' : ∀ c', c'.x d = v → SameOutside S c c' → Writes ws' T c' d' v') :
    Writes (ws ++ ws') T c d' v' := by
  obtain ⟨c₁, hline, hv, hsame⟩ := h
  obtain ⟨c₂, hline', hv', hsame'⟩ := h' c₁ hv hsame
  exact ⟨c₂, hline.append hline', hv', (hsame.mono hST).trans hsame'⟩

/-- An operation on two registers. -/
theorem writes_data {op : U32} {dop : DataOp} {sf : Bool} (h : IsData op dop sf)
    (hop : dop ≠ .subs) {d : Reg} (hd : d ≠ 31) (n m : Reg) (c : Cpu) :
    Writes [rrr op (d.setWidth 8) (n.setWidth 8) (m.setWidth 8)] {d} c d
      ((dop.eval (c.get sf n) (c.get sf m)).setWidth 64) := by
  refine Writes.word (decode_rrr h d n m) rfl hd ?_
  have hflags : dop.setFlags (c.get sf n) (c.get sf m) c.flags = c.flags := by
    cases dop with
    | subs => exact absurd rfl hop
    | _ => rfl
  dsimp only [Instr.exec]
  rw [hflags]

theorem writes_data64 {op : U32} {dop : DataOp} (h : IsData op dop true) (hop : dop ≠ .subs)
    {d n m : Reg} (hd : d ≠ 31) (hn : n ≠ 31) (hm : m ≠ 31) (c : Cpu) :
    Writes [rrr op (d.setWidth 8) (n.setWidth 8) (m.setWidth 8)] {d} c d
      (dop.eval (c.x n) (c.x m)) := by
  have hv : (dop.eval (c.get true n) (c.get true m)).setWidth 64 = dop.eval (c.x n) (c.x m) := by
    rw [c.get_true hn, c.get_true hm]
    exact BitVec.setWidth_eq _
  rw [← hv]
  exact writes_data h hop hd n m c

/-! ### Arithmetic -/

theorem addWithCarry_add {w : ℕ} (a b : BitVec w) : (addWithCarry a b false).1 = a + b := by
  refine BitVec.eq_of_toNat_eq ?_
  simp [addWithCarry]

theorem addWithCarry_sub {w : ℕ} (a b : BitVec w) : (addWithCarry a (~~~b) true).1 = a - b := by
  have hb := b.isLt
  refine BitVec.eq_of_toNat_eq ?_
  simp only [addWithCarry, BitVec.toNat_ofNat, BitVec.toNat_not, BitVec.toNat_sub, Bool.toNat_true]
  congr 1
  omega

/-- **The flags after a comparison.**  Signed order is read off `n` and `v`. -/
theorem compare_flags {w : ℕ} (a b : BitVec w) :
    ((addWithCarry a (~~~b) true).2.z = true ↔ a = b) ∧
      ((addWithCarry a (~~~b) true).2.c = true ↔ b.toNat ≤ a.toNat) := by
  have ha := a.isLt
  have hb := b.isLt
  constructor
  · have hz : (addWithCarry a (~~~b) true).2.z = decide ((addWithCarry a (~~~b) true).1 = 0) := rfl
    rw [hz, addWithCarry_sub, decide_eq_true_eq, BitVec.sub_eq_iff_eq_add]
    exact ⟨fun h => h.trans (BitVec.zero_add b), fun h => h.trans (BitVec.zero_add b).symm⟩
  · simp only [addWithCarry, BitVec.toNat_ofNat, BitVec.toNat_not, Bool.toNat_true,
      decide_eq_true_eq]
    have hsum : a.toNat + (2 ^ w - 1 - b.toNat) + 1 = a.toNat + 2 ^ w - b.toNat := by omega
    rw [hsum]
    constructor
    · intro hne
      by_contra hlt
      exact hne (Nat.mod_eq_of_lt (by omega))
    · intro hle hmod
      have := Nat.mod_lt (a.toNat + 2 ^ w - b.toNat) (Nat.two_pow_pos w)
      omega

theorem compare_flags_signed {w : ℕ} (hw : w = 32 ∨ w = 64) (a b : BitVec w) :
    (addWithCarry a (~~~b) true).2.n = (addWithCarry a (~~~b) true).2.v ↔ b.toInt ≤ a.toInt := by
  have ha := BitVec.toInt_eq_toNat_cond a
  have hb := BitVec.toInt_eq_toNat_cond b
  have hnot := BitVec.toInt_eq_toNat_cond (~~~b)
  have hdiff := BitVec.toInt_eq_toNat_cond (a - b)
  have halt := a.isLt
  have hblt := b.isLt
  rw [BitVec.toNat_not] at hnot
  rw [BitVec.toNat_sub] at hdiff
  have hn : (addWithCarry a (~~~b) true).2.n = decide ((a - b).toInt < 0) := by
    rw [← BitVec.msb_eq_toInt, ← addWithCarry_sub]
    rfl
  have hv : (addWithCarry a (~~~b) true).2.v =
      decide ((a - b).toInt ≠ a.toInt + (~~~b).toInt + 1) := by
    rw [← addWithCarry_sub]
    rfl
  rw [hn, hv, decide_eq_decide]
  rcases hw with rfl | rfl
  · split_ifs at ha hb hnot hdiff <;> omega
  · split_ifs at ha hb hnot hdiff <;> omega

end NVMirror.Aarch64
