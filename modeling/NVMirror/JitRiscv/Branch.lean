import NVMirror.JitEngine.Comparison
import NVMirror.JitRiscv.Registers

/-!
# Branches on the machine

* `compareWords_eq`: the comparison of two registers is a line on the scratch register, then one
  branch, which is taken where the interpreter jumps.
* `branch_words`: so is every conditional branch.
* `patch_branch`, `patch_jal`: the patched words decode to branches with the displacement that was
  asked for.

A 32-bit branch with the operation `Ja` has no such form: its word is a `JAL`, and is patched as if
it were a conditional branch.
-/

namespace NVMirror.Riscv

open Rust Fields

/-! ### Patched words -/

/-- The word of a branch before it is patched. -/
def unpatched (funct3 : BitVec 3) (s1 s2 : Reg) : U32 :=
  bType (funct3.setWidth 32) (s1.setWidth 8) (s2.setWidth 8) 0

/-- The displacement of a patched branch. -/
theorem field_displacement {k : ℕ} (hk : k = 12 ∨ k = 20) {d : ℤ} (hlo : -2 ^ k ≤ 4 * d)
    (hhi : 4 * d < 2 ^ k) : 2 * (field (BitVec.ofInt 32 (4 * d)) 1 k).toInt = 4 * d := by
  have hcond := BitVec.toInt_eq_toNat_cond (field (BitVec.ofInt 32 (4 * d)) 1 k)
  unfold field at hcond ⊢
  rw [BitVec.extractLsb'_toNat, BitVec.toNat_ofInt, Nat.shiftRight_eq_div_pow] at hcond
  rcases hk with rfl | rfl
  · rw [hcond]
    split_ifs <;> omega
  · rw [hcond]
    split_ifs <;> omega

theorem patch_branch {d : ℤ} {f : U32 → U32} (h : patch .branch (4 * d) = some f)
    {funct3 : BitVec 3} {cond : Compare} (hcond : compareOf funct3 = some cond) (s1 s2 : Reg) :
    ∃ imm12, decode (f (unpatched funct3 s1 s2)) = some (.branch cond s1 s2 imm12) ∧
      2 * imm12.toInt = 4 * d := by
  unfold patch at h
  dsimp only at h
  split_ifs at h with hrange
  cases h
  exact ⟨_, decode_patchedBranch funct3 hcond s1 s2 _,
    field_displacement (Or.inl rfl) (by omega) (by omega)⟩

theorem patch_jal {d : ℤ} {f : U32 → U32} (h : patch .jal (4 * d) = some f) :
    ∃ imm20, decode (f (jal 0 0)) = some (.jal 0 imm20) ∧ 2 * imm20.toInt = 4 * d := by
  unfold patch at h
  dsimp only at h
  split_ifs at h with hrange
  cases h
  exact ⟨_, decode_patchedJump _, field_displacement (Or.inr rfl) (by omega) (by omega)⟩

/-- A `JAL` patched as if it were a conditional branch: the pieces of the displacement are read as
a link register and as parts of another displacement. -/
theorem decode_scrambled {d : ℤ} {f : U32 → U32} (h : patch .branch (4 * d) = some f) :
    ∃ imm : I32, imm = BitVec.ofInt 32 (4 * d) ∧
      decode (f (jal 0 0)) = some (.jal (field imm 1 4 ++ field imm 11 1)
        (field imm 12 1 ++ (0 : BitVec 8) ++ (0 : BitVec 1) ++
          (field imm 5 6 ++ (0 : BitVec 4)))) := by
  unfold patch at h
  dsimp only at h
  split_ifs at h
  cases h
  have hjal : jal 0 0 &&& (0x01FFF07F : U32) = (0x6F : BitVec 7).setWidth 32 := by decide
  refine ⟨_, rfl, ?_⟩
  dsimp only
  rw [hjal, encodeBTypeImm_eq]
  generalize BitVec.ofInt 32 (4 * d) = imm
  generalize hop : (0x6F : BitVec 7) = opcode
  generalize hw : (_ ||| _ : U32) = w
  have h1 : field w 0 7 = opcode := by
    rw [← hw]
    simp
  have h2 : field w 7 5 = field imm 1 4 ++ field imm 11 1 := by
    have happ : field w 8 4 ++ field w 7 1 = field w 7 5 := field_append w 7 1 4
    rw [← happ, ← hw]
    simp
  have h3 : field w 31 1 = field imm 12 1 := by
    rw [← hw]
    simp
  have h4 : field w 12 8 = 0 := by
    rw [← hw]
    simp
  have h5 : field w 20 1 = 0 := by
    rw [← hw]
    simp
  have h6 : field w 21 10 = field imm 5 6 ++ (0 : BitVec 4) := by
    have happ : field w 25 6 ++ field w 21 4 = field w 21 10 := field_append w 21 4 6
    rw [← happ, ← hw]
    simp
  simp only [decode, h1, h2, h3, h4, h5, h6, ← hop]
  simp

/-! ### The words of a branch -/

/-- **The comparison of two registers.** -/
theorem compareWords_eq {op : JmpOp} (hop : op ≠ .ja) (lhs rhs : Reg) :
    ∃ (pre : List U32) (funct3 : BitVec 3) (cond : Compare) (s1 s2 : Reg),
      compareWords op (lhs.setWidth 8) (rhs.setWidth 8) = pre ++ [unpatched funct3 s1 s2] ∧
        compareOf funct3 = some cond ∧ Touches pre {r | r = 23 ∧ op = .jset} ∧
        ∀ c : Cpu, ∃ c', Line pre c c' ∧ SameOutside {r | r = 23 ∧ op = .jset} c c' ∧
          cond.holds (c'.get s1) (c'.get s2) = op.holds (c.get lhs) (c.get rhs) := by
  have hnil : Touches [] {r | r = 23 ∧ op = .jset} := Effects.nil _
  have hone : ∀ (cond : Compare) (s1 s2 : Reg),
      (∀ c : Cpu, cond.holds (c.get s1) (c.get s2) = op.holds (c.get lhs) (c.get rhs)) →
      ∀ c : Cpu, ∃ c', Line [] c c' ∧ SameOutside {r | r = 23 ∧ op = .jset} c c' ∧
        cond.holds (c'.get s1) (c'.get s2) = op.holds (c.get lhs) (c.get rhs) :=
    fun _ _ _ h c => ⟨c, Line.nil c, SameOutside.refl _ c, h c⟩
  cases op with
  | jeq => exact ⟨[], 0, .eq, lhs, rhs, rfl, rfl, hnil, hone _ _ _ fun _ => rfl⟩
  | jne => exact ⟨[], 1, .ne, lhs, rhs, rfl, rfl, hnil, hone _ _ _ fun _ => rfl⟩
  | jgt => exact ⟨[], 6, .ltu, rhs, lhs, rfl, rfl, hnil, hone _ _ _ fun _ => rfl⟩
  | jge => exact ⟨[], 7, .geu, lhs, rhs, rfl, rfl, hnil, hone _ _ _ fun _ => rfl⟩
  | jlt => exact ⟨[], 6, .ltu, lhs, rhs, rfl, rfl, hnil, hone _ _ _ fun _ => rfl⟩
  | jle => exact ⟨[], 7, .geu, rhs, lhs, rfl, rfl, hnil, hone _ _ _ fun _ => rfl⟩
  | jsgt => exact ⟨[], 4, .lt, rhs, lhs, rfl, rfl, hnil, hone _ _ _ fun _ => rfl⟩
  | jsge => exact ⟨[], 5, .ge, lhs, rhs, rfl, rfl, hnil, hone _ _ _ fun _ => rfl⟩
  | jslt => exact ⟨[], 4, .lt, lhs, rhs, rfl, rfl, hnil, hone _ _ _ fun _ => rfl⟩
  | jsle => exact ⟨[], 5, .ge, rhs, lhs, rfl, rfl, hnil, hone _ _ _ fun _ => rfl⟩
  | jset =>
    have htmp : ({23} : Set Reg) ⊆ {r | r = 23 ∧ JmpOp.jset = .jset} := by
      rintro r rfl
      exact ⟨rfl, rfl⟩
    refine ⟨_, 1, .ne, 23, 0, rfl, rfl, (touches_op 0 7 rfl 23 lhs rhs).mono htmp, fun c => ?_⟩
    refine ⟨_, Line.word (decode_op 0 7 (f := .and) rfl 23 lhs rhs) rfl c,
      (SameOutside.set c 23 _).mono htmp, ?_⟩
    rw [Cpu.get_zero, Cpu.get_of_ne _ (by decide)]
    dsimp only [Instr.effect]
    rw [Cpu.set_x_self _ _ (by decide)]
    rfl
  | ja => exact absurd rfl hop

/-- **A conditional branch** is a line on the scratch register, then one branch. -/
theorem branch_words [Profile] {ε : Type} {op : JmpOp} (hop : op ≠ .ja) (lhs : Reg) {rhs : Operand}
    (hrhs : ∀ p, rhs = .reg p → ∃ s, p = physOf s) (is32bit : Bool) (target : BasicBlockId) :
    ∃ (pre : List U32) (funct3 : BitVec 3) (cond : Compare) (s1 s2 : Reg),
      compareOf funct3 = some cond ∧
        Touches pre (scratch (.branch ⟨op, physOf lhs, rhs, is32bit⟩ target)) ∧
        ∀ e : RiscVEmitter, emitBranchNode (ε := ε) e ⟨op, physOf lhs, rhs, is32bit⟩ target =
          .ok (e.append (pre ++ [unpatched funct3 s1 s2]) (some (target, .branch))) := by
  cases rhs with
  | reg p =>
    obtain ⟨s, rfl⟩ := hrhs p rfl
    obtain ⟨pre, funct3, cond, s1, s2, hws, hcond, htouch, -⟩ := compareWords_eq hop lhs s
    refine ⟨pre, funct3, cond, s1, s2, hcond, htouch.mono ?_, fun e => ?_⟩
    · rintro r ⟨rfl, hjset⟩
      exact ⟨rfl, decide_eq_true hjset⟩
    · rw [← hws, emitBranchNode_reg]
      rfl
  | imm v =>
    obtain ⟨pre, funct3, cond, s1, s2, hws, hcond, htouch, -⟩ := compareWords_eq hop lhs 23
    obtain ⟨ws, hload, -, htouch'⟩ := touches_loadImm64 (ε := ε) 23 v
    have huses : usesScratch (.branch ⟨op, physOf lhs, .imm v, is32bit⟩ target) = true := rfl
    rw [scratch_eq huses]
    refine ⟨ws ++ pre, funct3, cond, s1, s2, hcond, ?_, fun e => ?_⟩
    · refine (htouch'.mono ?_).append (htouch.mono ?_)
      · rintro r (hr | ⟨rfl, -⟩)
        · exact hr
        · rfl
      · rintro r ⟨rfl, -⟩
        rfl
    · rw [List.append_assoc, ← hws]
      exact emitBranchNode_imm e op (physOf lhs) hload is32bit target

/-- **A line, then a branch.** -/
theorem steps_line_branch (env : Env) {pre : List U32} {w : U32} {cond : Compare} {s1 s2 : Reg}
    {imm12 : BitVec 12} {c c' : Cpu} (hline : Line pre c c')
    (hdecode : decode w = some (.branch cond s1 s2 imm12)) {code : List U8} {pc : ℤ}
    (hcode : CodeAt code pc (pre ++ [w])) :
    steps (step env code) ⟨c, pc⟩ (pre.length + 1) =
      .ok ⟨c', pc + 4 * pre.length +
        if cond.holds (c'.get s1) (c'.get s2) then 2 * imm12.toInt else 4⟩ := by
  refine steps_trans (hline.steps env hcode.take) ?_
  rw [steps_one, step_of_fetch env hcode.drop.head hdecode rfl]
  rfl

end NVMirror.Riscv
