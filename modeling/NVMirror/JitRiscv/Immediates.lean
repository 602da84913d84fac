import NVMirror.JitRiscv.Alu

/-!
# Arithmetic with constants

An instruction holds a constant of 12 bits, or a shift; any other constant goes through the scratch
register, and what is left of it there (`loaded`) is what the operation gets.

* `writes_fallback`: a constant in the scratch register, then an operation on it.
* `writes_alu64_imm`, `writes_alu32_imm`: operations whose constant is left as it is.
-/

namespace NVMirror.Riscv

open Rust Fields

variable {ε : Type} [Profile]

/-- Operations that do not load their constant: there is none in it, or the instruction holds it. -/
def holdsImm : AluOp → Bool
  | .neg | .lsh | .rsh | .arsh => true
  | _ => false

omit [Profile] in
/-- A constant that the scratch register holds can be loaded into any register. -/
theorem loaded_of_scratch {v : U64} (h : loaded 23 v = v) (d : Reg) : loaded d v = v := by
  rcases (loaded_eq_iff 23 v).1 h with hsmall | ⟨hupper, hlower, hzero⟩
  · exact (loaded_eq_iff d v).2 (Or.inl hsmall)
  · exact (loaded_eq_iff d v).2 (Or.inr ⟨hupper, hlower, fun _ => hzero rfl⟩)

/-- **A constant in the scratch register**, then an operation on it. -/
theorem writes_fallback {emit : Operand → Rust ε (List U32)} {r : U64 → U64 → U64} {d : Reg}
    (hd23 : d ≠ 23) (v : I64) (hreg : ∃ ws, emit (.reg (physOf 23)) = .ok ws ∧
      ∀ c : Cpu, Writes ws {d} c d (r (c.x d) (c.x 23))) :
    ∃ ws', (do
      let (ws, rs) ← materializeImm v tmp
      let ws' ← emit (.reg ⟨rs⟩)
      pure (ws ++ ws')) = .ok ws' ∧
      ∀ c : Cpu, Writes ws' ({d} ∪ {23}) c d (r (c.x d) (loaded 23 v)) := by
  obtain ⟨ws, hws, hload⟩ := writes_loadImm64 (ε := ε) (by decide : (23 : Reg) ≠ 0) v
  obtain ⟨ws', hws', hop⟩ := hreg
  refine ⟨ws ++ ws', ?_, fun c => ?_⟩
  · unfold materializeImm
    rw [show (tmp : U8) = (23 : Reg).setWidth 8 from rfl, hws, ok_bind, pure_eq, ok_bind]
    dsimp only
    rw [show (⟨(23 : Reg).setWidth 8⟩ : PhysReg) = physOf 23 from rfl, hws', ok_bind]
    rfl
  · obtain ⟨c₁, hline, hv, hsame⟩ := hload c
    obtain ⟨c₂, hline', hv', hsame'⟩ := hop c₁
    have hnot : d ∉ ({23} ∪ {23} : Set Reg) := by
      rintro (h | h)
      · exact hd23 h
      · exact hd23 h
    rw [hsame.x d hnot, hv] at hv'
    refine ⟨c₂, hline.append hline', hv', ?_⟩
    have hsub : ({23} ∪ {23} : Set Reg) ⊆ {d} ∪ {23} := by
      rintro r (h | h)
      · exact Or.inr h
      · exact Or.inr h
    exact (hsame.mono hsub).trans (hsame'.mono Set.subset_union_left)

omit [Profile] in
/-- The field of a shift. -/
theorem shamt_toNat (v : U64) :
    ((((v &&& 63).setWidth 32).setWidth 6).setWidth 64).toNat = v.toNat % 64 := by
  have hmask : (v &&& 63).toNat = v.toNat % 64 := by
    rw [BitVec.toNat_and]
    exact Nat.and_two_pow_sub_one_eq_mod v.toNat 6
  rw [BitVec.toNat_setWidth, BitVec.toNat_setWidth, BitVec.toNat_setWidth, hmask]
  omega

/-- **Arithmetic on 64 bits with a constant** that its instruction holds or that can be loaded. -/
theorem writes_alu64_imm (op : AluOp) {d : Reg} (hd : d ≠ 0) (hd23 : d ≠ 23) {v : I64}
    (h : holdsImm op = true ∨ loaded 23 v = v) :
    ∃ ws, emitAlu64Node (ε := ε) op (physOf d) (.imm v) = .ok ws ∧
      ∀ c : Cpu, Writes ws ({d} ∪ {23}) c d (rvResult op (c.x d) v) := by
  have hsub : ({d} : Set Reg) ⊆ {d} ∪ {23} := Set.subset_union_left
  have hshift : ∀ (funct6 : BitVec 6) (funct3 : BitVec 3) {f : DataOp},
      shiftOp funct6 funct3 = some f → (∀ a b : U64, b.toNat = v.toNat % 64 →
        f.eval a b = rvResult op a v) →
      ∀ c : Cpu, Writes [shiftImm (funct6.setWidth 32 <<< 6) (d.setWidth 8)
        ((v &&& 63).setWidth 32) (funct3.setWidth 32) (d.setWidth 8)] ({d} ∪ {23}) c d
          (rvResult op (c.x d) v) := by
    intro funct6 funct3 f hop heval c
    have hw := writes_shiftImm hd c funct6 funct3 hop d ((v &&& 63).setWidth 32)
    rw [c.get_of_ne hd, heval _ _ (shamt_toNat v)] at hw
    exact hw.mono hsub
  have hshort : IsShort v → ∀ (funct3 : BitVec 3) {f : DataOp}, immOp funct3 = some f →
      (∀ a : U64, f.eval a v = rvResult op a v) →
      ∀ c : Cpu, Writes [iType (v.setWidth 32) (d.setWidth 8) (funct3.setWidth 32) (d.setWidth 8)
        0x13] ({d} ∪ {23}) c d (rvResult op (c.x d) v) := by
    intro hv funct3 f hop heval c
    have hw := writes_opImm hd c funct3 hop d (v.setWidth 32)
    rw [c.get_of_ne hd, signExtend_of_isShort hv, heval] at hw
    exact hw.mono hsub
  have hfall : loaded 23 v = v → ∃ ws', (do
      let (ws, rs) ← materializeImm v tmp
      let ws' ← emitAlu64Node (ε := ε) op (physOf d) (.reg ⟨rs⟩)
      pure (ws ++ ws')) = .ok ws' ∧
      ∀ c : Cpu, Writes ws' ({d} ∪ {23}) c d (rvResult op (c.x d) v) := by
    intro hv
    have hw := writes_fallback (ε := ε) (r := rvResult op) hd23 v
      (writes_alu64 op hd (by decide : (23 : Reg) ≠ 0))
    rwa [hv] at hw
  cases op with
  | mov =>
    have hv := loaded_of_scratch (h.resolve_left (by decide)) d
    obtain ⟨ws, hws, hwrites⟩ := writes_loadImm64 (ε := ε) hd v
    refine ⟨ws, by rw [emitAlu64Node]; exact hws, fun c => ?_⟩
    have hw := hwrites c
    rw [hv] at hw
    exact hw
  | neg =>
    refine ⟨_, by rw [emitAlu64Node]; rfl, fun c => ?_⟩
    have hw := writes_op hd c 0x20 0 (f := .sub) rfl 0 d
    rw [c.get_of_ne hd] at hw
    have hval : DataOp.sub.eval (c.get 0) (c.x d) = rvResult .neg (c.x d) v :=
      BitVec.zero_sub (c.x d)
    rw [hval] at hw
    exact hw.mono hsub
  | lsh =>
    refine ⟨_, by rw [emitAlu64Node]; rfl, hshift 0 1 rfl fun a b hb => ?_⟩
    exact congrArg (a <<< ·) (by rw [hb, Nat.mod_mod])
  | rsh =>
    refine ⟨_, by rw [emitAlu64Node]; rfl, hshift 0 5 rfl fun a b hb => ?_⟩
    exact congrArg (a >>> ·) (by rw [hb, Nat.mod_mod])
  | arsh =>
    refine ⟨_, by rw [emitAlu64Node]; rfl, hshift 0x10 5 rfl fun a b hb => ?_⟩
    exact congrArg a.sshiftRight (by rw [hb, Nat.mod_mod])
  | sub | mul | div | mod =>
    rw [emitAlu64Node]
    · simpa using hfall (h.resolve_left (by decide))
    all_goals simp
  | add =>
    by_cases hv : IsShort v
    · refine ⟨_, ?_, hshort hv 0 rfl fun _ => rfl⟩
      rw [emitAlu64Node, if_pos ⟨rfl, hv⟩]
      all_goals first | rfl | simp
    · rw [emitAlu64Node, if_neg fun hc => hv hc.2]
      · simpa using hfall (h.resolve_left (by decide))
      all_goals simp
  | and =>
    by_cases hv : IsShort v
    · refine ⟨_, ?_, hshort hv 7 rfl fun _ => rfl⟩
      rw [emitAlu64Node, if_neg (by simp), if_pos ⟨rfl, hv⟩]
      all_goals first | rfl | simp
    · rw [emitAlu64Node, if_neg (by simp), if_neg fun hc => hv hc.2]
      · simpa using hfall (h.resolve_left (by decide))
      all_goals simp
  | or =>
    by_cases hv : IsShort v
    · refine ⟨_, ?_, hshort hv 6 rfl fun _ => rfl⟩
      rw [emitAlu64Node, if_neg (by simp), if_neg (by simp), if_pos ⟨rfl, hv⟩]
      all_goals first | rfl | simp
    · rw [emitAlu64Node, if_neg (by simp), if_neg (by simp), if_neg fun hc => hv hc.2]
      · simpa using hfall (h.resolve_left (by decide))
      all_goals simp
  | xor =>
    by_cases hv : IsShort v
    · refine ⟨_, ?_, hshort hv 4 rfl fun _ => rfl⟩
      rw [emitAlu64Node, if_neg (by simp), if_neg (by simp), if_neg (by simp), if_pos ⟨rfl, hv⟩]
      all_goals first | rfl | simp
    · rw [emitAlu64Node, if_neg (by simp), if_neg (by simp), if_neg (by simp),
        if_neg fun hc => hv hc.2]
      · exact hfall (h.resolve_left (by decide))
      all_goals simp

/-- **Arithmetic on 32 bits with a constant** that can be loaded. -/
theorem writes_alu32_imm (op : AluOp) {d : Reg} (hd : d ≠ 0) (hd23 : d ≠ 23) {v : I64}
    (h : op = .neg ∨ loaded 23 v = v) :
    ∃ ws, emitAlu32Node (ε := ε) op (physOf d) (.imm v) = .ok ws ∧
      ∀ c : Cpu, Writes ws ({d} ∪ {23}) c d (rvResult32 op (low (c.x d)) (low v)) := by
  have hfall : loaded 23 v = v → ∃ ws', (do
      let (ws, rs) ← materializeImm v tmp
      let ws' ← emitAlu32Node (ε := ε) op (physOf d) (.reg ⟨rs⟩)
      pure (ws ++ ws')) = .ok ws' ∧
      ∀ c : Cpu, Writes ws' ({d} ∪ {23}) c d (rvResult32 op (low (c.x d)) (low v)) := by
    intro hv
    have hw := writes_fallback (ε := ε) (r := fun a b => rvResult32 op (low a) (low b)) hd23 v
      (writes_alu32 op hd (by decide : (23 : Reg) ≠ 0))
    rwa [hv] at hw
  cases op with
  | neg =>
    -- the operand does not count
    obtain ⟨ws, hws, hwrites⟩ := writes_alu32 (ε := ε) .neg hd hd
    refine ⟨ws, ?_, fun c => ?_⟩
    · rw [emitAlu32Node] at hws
      rw [emitAlu32Node]
      exact hws
    · exact (hwrites c).mono Set.subset_union_left
  | _ =>
    have hv := h.resolve_left (by simp)
    rw [emitAlu32Node]
    · exact hfall hv
    all_goals simp

end NVMirror.Riscv
