import NVMirror.JitRiscv.Registers

/-!
# Results of words

What the words of constants and operations leave in a register.

* `writes_op`, `writes_opWord`, `writes_opImm`, `writes_shiftImm`, `writes_lui`: one word.
* `writes_short`: constants of 12 bits.
* `writes_loadImm64`: what is left of a constant, `loaded`.  The upper part of a constant goes into
  the field of `LUI` without the shift by 12 bits, and a constant that is put together in the
  scratch register adds its lower half to itself.
* `loadImm64_iff`: the constants that are loaded.
-/

namespace NVMirror.Riscv

open Rust Fields

/-! ### Words -/

section

variable {d : Reg} (hd : d ≠ 0) (c : Cpu)

include hd

theorem writes_op (funct7 : BitVec 7) (funct3 : BitVec 3) {f : DataOp}
    (h : dataOp funct7 funct3 = some f) (s1 s2 : Reg) :
    Writes [rType (funct7.setWidth 32) (s2.setWidth 8) (s1.setWidth 8) (funct3.setWidth 32)
      (d.setWidth 8) 0x33] {d} c d (f.eval (c.get s1) (c.get s2)) :=
  Writes.word (decode_op funct7 funct3 h d s1 s2) rfl hd rfl

theorem writes_opWord (funct7 : BitVec 7) (funct3 : BitVec 3) {f : DataOp}
    (h : (dataOp funct7 funct3).filter DataOp.hasWord = some f) (s1 s2 : Reg) :
    Writes [rType (funct7.setWidth 32) (s2.setWidth 8) (s1.setWidth 8) (funct3.setWidth 32)
      (d.setWidth 8) 0x3B] {d} c d
      ((f.eval ((c.get s1).setWidth 32) ((c.get s2).setWidth 32)).signExtend 64) :=
  Writes.word (decode_opWord funct7 funct3 h d s1 s2) rfl hd rfl

theorem writes_opImm (funct3 : BitVec 3) {f : DataOp} (h : immOp funct3 = some f) (s1 : Reg)
    (imm : I32) :
    Writes [iType imm (s1.setWidth 8) (funct3.setWidth 32) (d.setWidth 8) 0x13] {d} c d
      (f.eval (c.get s1) ((imm.setWidth 12).signExtend 64)) :=
  Writes.word (decode_opImm funct3 h d s1 imm) rfl hd rfl

theorem writes_shiftImm (funct6 : BitVec 6) (funct3 : BitVec 3) {f : DataOp}
    (h : shiftOp funct6 funct3 = some f) (s1 : Reg) (shamt : U32) :
    Writes [shiftImm (funct6.setWidth 32 <<< 6) (s1.setWidth 8) shamt (funct3.setWidth 32)
      (d.setWidth 8)] {d} c d (f.eval (c.get s1) ((shamt.setWidth 6).setWidth 64)) :=
  Writes.word (decode_shiftImm funct6 funct3 h d s1 shamt) rfl hd rfl

/-- `LUI` leaves the upper 20 bits of the value the encoder gets. -/
theorem writes_lui (imm : I32) : Writes [lui (d.setWidth 8) imm] {d} c d
    ((field imm 12 20 ++ (0 : BitVec 12)).signExtend 64) :=
  Writes.word (decode_lui d imm) rfl hd rfl

theorem writes_addi (s1 : Reg) (imm : I32) :
    Writes [addi (d.setWidth 8) (s1.setWidth 8) imm] {d} c d
      (c.get s1 + (imm.setWidth 12).signExtend 64) :=
  writes_opImm hd c 0 rfl s1 imm

/-- `MV`. -/
theorem writes_mv {s1 : Reg} (hs1 : s1 ≠ 0) :
    Writes [addi (d.setWidth 8) (s1.setWidth 8) 0] {d} c d (c.x s1) := by
  have hsum : c.get s1 + ((0 : I32).setWidth 12).signExtend 64 = c.x s1 :=
    (BitVec.add_zero _).trans (c.get_of_ne hs1)
  rw [← hsum]
  exact writes_addi hd c s1 0

end

/-! ### Parts of a constant -/

/-- A constant of 12 bits is its own field. -/
theorem signExtend_of_isShort {v : I64} (h : IsShort v) :
    ((v.setWidth 32).setWidth 12).signExtend 64 = v := by
  have hv := BitVec.toInt_eq_toNat_cond v
  have hlt := v.isLt
  obtain ⟨hlow, hhigh⟩ := h
  have hwidth : (v.setWidth 32).setWidth 12 = v.setWidth 12 :=
    BitVec.setWidth_setWidth_of_le v (by decide)
  rw [← BitVec.toInt_inj, BitVec.toInt_signExtend_of_le (by decide), hwidth, BitVec.toInt_setWidth,
    Int.bmod_def]
  split_ifs at hv ⊢ <;> omega

theorem ofInt_shiftLeft (x : ℤ) : BitVec.ofInt 64 x <<< 32 = BitVec.ofInt 64 (2 ^ 32 * x) := by
  rw [← BitVec.toNat_inj, BitVec.toNat_shiftLeft, BitVec.toNat_ofInt, BitVec.toNat_ofInt,
    Nat.shiftLeft_eq]
  omega

/-- The upper 20 bits, as `LUI` extends them. -/
theorem luiValue_eq (hi : I32) : (field hi 12 20 ++ (0 : BitVec 12)).signExtend 64 =
    BitVec.ofInt 64 (4096 * (hi.toInt / 4096)) := by
  have hlt := hi.isLt
  have hint : (field hi 12 20 ++ (0 : BitVec 12)).toInt = 4096 * (hi.toInt / 4096) := by
    have happ : (field hi 12 20 ++ (0 : BitVec 12)).toNat = 4096 * (hi.toNat / 4096) := by
      rw [toNat_append_eq, toNat_field]
      simp
      omega
    have h1 := BitVec.toInt_eq_toNat_cond (field hi 12 20 ++ (0 : BitVec 12))
    have h2 := BitVec.toInt_eq_toNat_cond hi
    rw [happ] at h1
    split_ifs at h1 h2 <;> omega
  rw [BitVec.signExtend, hint]

theorem setWidth_signExtend12 (x : I32) : (signExtend12 x).setWidth 12 = x.setWidth 12 := by
  have hmask : x &&& 0xFFF = (x.setWidth 12).setWidth 32 := and_mask x (k := 12) (by decide)
  rw [signExtend12, hmask]
  generalize x.setWidth 12 = y
  ext i hi
  have h32 : i < 32 := by omega
  have h20 : 20 + i < 32 := by omega
  rw [BitVec.getElem_setWidth, BitVec.getLsbD_sshiftRight]
  simp [hi, h32, h20, BitVec.getLsbD_eq_getElem]

/-- The lower 12 bits, as `ADDI` extends them. -/
theorem addiValue_eq (v : I64) :
    ((signExtend12 (v.setWidth 32 &&& 0xFFF)).setWidth 12).signExtend 64 =
      BitVec.ofInt 64 (v.toInt - 4096 * ((v.toInt + 2048) / 4096)) := by
  have hmask : v.setWidth 32 &&& 0xFFF = ((v.setWidth 32).setWidth 12).setWidth 32 :=
    and_mask _ (k := 12) (by decide)
  have hlow : (v.setWidth 32 &&& 0xFFF).setWidth 12 = v.setWidth 12 := by
    rw [hmask, BitVec.setWidth_setWidth_of_le v (by decide),
      BitVec.setWidth_setWidth (by decide), BitVec.setWidth_eq]
  have hint : (v.setWidth 12).toInt = v.toInt - 4096 * ((v.toInt + 2048) / 4096) := by
    have hv := BitVec.toInt_eq_toNat_cond v
    have hlt := v.isLt
    rw [BitVec.toInt_setWidth, Int.bmod_def]
    split_ifs at hv ⊢ <;> omega
  rw [setWidth_signExtend12, hlow, BitVec.signExtend, hint]

/-- The rounded upper part. -/
theorem toInt_upper {v : I64} (hlow : -2 ^ 31 ≤ v.toInt) (hhigh : v.toInt < 2 ^ 32) :
    (((v + 0x800).sshiftRight 12).setWidth 32).toInt = (v.toInt + 2048) / 4096 := by
  have h2048 : (0x800 : I64).toInt = 2048 := rfl
  have hsum : (v + 0x800).toInt = v.toInt + 2048 := by
    rw [BitVec.toInt_add, h2048, Int.bmod_def]
    split_ifs <;> omega
  have hshift : ((v + 0x800).sshiftRight 12).toInt = (v.toInt + 2048) / 4096 := by
    rw [BitVec.toInt_sshiftRight, hsum, Int.shiftRight_eq_div_pow]
    rfl
  have hcond := BitVec.toInt_eq_toNat_cond ((v + 0x800).sshiftRight 12)
  have hlt := ((v + 0x800).sshiftRight 12).isLt
  rw [hshift] at hcond
  rw [BitVec.toInt_setWidth, Int.bmod_def]
  split_ifs at hcond ⊢ <;> omega

/-- What `LUI` and `ADDI` leave of a constant: the upper part without its own lower 12 bits, and the
lower part. -/
def splitValue (v : ℤ) : ℤ := 4096 * ((v + 2048) / 4096 / 4096) + (v - 4096 * ((v + 2048) / 4096))

/-- A part that is zero is left out. -/
theorem ofInt_of_mask_eq_zero {v : I64} (h : v.setWidth 32 &&& 0xFFF = 0) :
    v.toInt - 4096 * ((v.toInt + 2048) / 4096) = 0 := by
  have hmask : v.setWidth 32 &&& 0xFFF = ((v.setWidth 32).setWidth 12).setWidth 32 :=
    and_mask _ (k := 12) (by decide)
  have hnat := congrArg BitVec.toNat (hmask.symm.trans h)
  rw [BitVec.toNat_setWidth, BitVec.toNat_setWidth, BitVec.toNat_setWidth] at hnat
  have hv := BitVec.toInt_eq_toNat_cond v
  have hzero : (0 : I32).toNat = 0 := rfl
  split_ifs at hv <;> omega

/-- The halves of a constant as numbers. -/
theorem toInt_halves_of (imm : U64) : (imm >>> 32).toInt = imm.toNat / 2 ^ 32 ∧
    (imm &&& 0xFFFFFFFF).toInt = imm.toNat % 2 ^ 32 := by
  have hlt := imm.isLt
  have hupper : (imm >>> 32).toNat = imm.toNat / 2 ^ 32 := by
    rw [BitVec.toNat_ushiftRight, Nat.shiftRight_eq_div_pow]
  have hmask : imm &&& 0xFFFFFFFF = (imm.setWidth 32).setWidth 64 :=
    and_mask imm (k := 32) (by decide)
  have hlower : (imm &&& 0xFFFFFFFF).toNat = imm.toNat % 2 ^ 32 := by
    rw [hmask, BitVec.toNat_setWidth, BitVec.toNat_setWidth]
    omega
  have h1 := BitVec.toInt_eq_toNat_cond (imm >>> 32)
  have h2 := BitVec.toInt_eq_toNat_cond (imm &&& 0xFFFFFFFF)
  rw [hupper] at h1
  rw [hlower] at h2
  split_ifs at h1 h2 <;> omega

/-! ### What is left of a constant -/

/-- What the words of a constant leave in the register. -/
def loaded (d : Reg) (imm : U64) : U64 :=
  if IsShort imm then imm
  else if -2147483648 ≤ imm.toInt ∧ imm.toInt < 2147483648 then
    BitVec.ofInt 64 (splitValue imm.toInt)
  else
    let upper : ℤ := imm.toNat / 2 ^ 32
    let lower : ℤ := imm.toNat % 2 ^ 32
    if lower = 0 then BitVec.ofInt 64 ((2 ^ 32 : ℤ) * splitValue upper)
    else if d = 23 then BitVec.ofInt 64 (2 * splitValue lower)
    else BitVec.ofInt 64 ((2 ^ 32 : ℤ) * splitValue upper + splitValue lower)

theorem splitValue_bounds {v : ℤ} (hlow : -2 ^ 31 ≤ v) (hhigh : v < 2 ^ 32) :
    -2 ^ 20 ≤ splitValue v ∧ splitValue v < 2 ^ 21 := by
  unfold splitValue
  omega

/-- The upper part is its own upper part. -/
theorem splitValue_eq_iff (v : ℤ) : splitValue v = v ↔ -6144 ≤ v ∧ v < 2048 := by
  unfold splitValue
  omega

/-- Also where it counts modulo 2³². -/
theorem splitValue_mod_iff {v : ℤ} (hlow : 0 ≤ v) (hhigh : v < 2 ^ 32) :
    splitValue v % 2 ^ 32 = v ↔ v < 2048 := by
  have hbounds := splitValue_bounds (v := v) (by omega) hhigh
  have hself := splitValue_eq_iff v
  have hwrapped : splitValue v ≠ v - 2 ^ 32 := by
    unfold splitValue
    omega
  omega

/-- The sum of both halves is right iff both are. -/
theorem splitValue_halves_iff {upper lower : ℤ} (hupper : 0 ≤ upper ∧ upper < 2 ^ 32)
    (hlower : 0 ≤ lower ∧ lower < 2 ^ 32) :
    (2 ^ 32 * splitValue upper + splitValue lower) % 2 ^ 64 = 2 ^ 32 * upper + lower ↔
      upper < 2048 ∧ lower < 2048 := by
  have hiff := splitValue_mod_iff hupper.1 hupper.2
  have hiff' := splitValue_mod_iff hlower.1 hlower.2
  have hself := splitValue_eq_iff lower
  rw [← hiff]
  generalize splitValue upper = x at hiff ⊢
  generalize splitValue lower = y at hiff' hself ⊢
  constructor
  · intro h
    -- the lower half first
    have hmod : y % 2 ^ 32 = lower := by omega
    have hsmall := hiff'.1 hmod
    have hy := hself.2 ⟨by omega, hsmall⟩
    exact ⟨by omega, hsmall⟩
  · rintro ⟨hx, hsmall⟩
    have hy := hself.2 ⟨by omega, hsmall⟩
    omega

/-- **The constants that are loaded.** -/
theorem loaded_eq_iff (d : Reg) (imm : U64) : loaded d imm = imm ↔
    (-6144 ≤ imm.toInt ∧ imm.toInt < 2048) ∨ (imm.toNat / 2 ^ 32 < 2048 ∧
      imm.toNat % 2 ^ 32 < 2048 ∧ (d = 23 → imm.toNat % 2 ^ 32 = 0)) := by
  have hlt := imm.isLt
  have hint := BitVec.toInt_eq_toNat_cond imm
  have hself : ∀ x : ℤ, BitVec.ofInt 64 x = imm ↔ x % 2 ^ 64 = imm.toNat := by
    intro x
    rw [← BitVec.toNat_inj, BitVec.toNat_ofInt]
    omega
  unfold loaded
  by_cases hshort : IsShort imm
  · rw [if_pos hshort]
    obtain ⟨h1, h2⟩ := hshort
    exact ⟨fun _ => Or.inl ⟨by omega, h2⟩, fun _ => rfl⟩
  have h12 : ¬ (-2048 ≤ imm.toInt ∧ imm.toInt < 2048) := hshort
  rw [if_neg hshort]
  by_cases h32 : -2147483648 ≤ imm.toInt ∧ imm.toInt < 2147483648
  · -- what is left of a constant of 32 bits is a number of 32 bits
    rw [if_pos h32, hself]
    have hbounds := splitValue_bounds (v := imm.toInt) (by omega) (by omega)
    have hmod : splitValue imm.toInt % 2 ^ 64 = imm.toNat ↔ splitValue imm.toInt = imm.toInt := by
      split_ifs at hint <;> omega
    rw [hmod, splitValue_eq_iff]
    split_ifs at hint <;> omega
  rw [if_neg h32]
  dsimp only
  have hhalves : (imm.toNat : ℤ) = 2 ^ 32 * (imm.toNat / 2 ^ 32) + imm.toNat % 2 ^ 32 := by omega
  have hupper : 0 ≤ (imm.toNat : ℤ) / 2 ^ 32 ∧ (imm.toNat : ℤ) / 2 ^ 32 < 2 ^ 32 := by omega
  have hlower : 0 ≤ (imm.toNat : ℤ) % 2 ^ 32 ∧ (imm.toNat : ℤ) % 2 ^ 32 < 2 ^ 32 := by omega
  have hiff := splitValue_halves_iff hupper hlower
  rw [← hhalves] at hiff
  by_cases hlow : (imm.toNat : ℤ) % 2 ^ 32 = 0
  · have hzero : splitValue 0 = 0 := by decide
    rw [hlow, hzero, add_zero] at hiff
    rw [if_pos hlow, hself, hiff]
    split_ifs at hint <;> omega
  rw [if_neg hlow]
  by_cases h23 : d = 23
  · -- twice the lower half is a number of 32 bits
    have hbounds := splitValue_bounds (v := (imm.toNat : ℤ) % 2 ^ 32) (by omega) (by omega)
    have hnot : ¬ (d = 23 → imm.toNat % 2 ^ 32 = 0) := fun h => hlow (by exact_mod_cast h h23)
    rw [if_pos h23, hself, eq_false hnot, and_false, and_false, or_false]
    generalize splitValue ((imm.toNat : ℤ) % 2 ^ 32) = y at hbounds ⊢
    split_ifs at hint <;> omega
  · have himp : d = 23 → imm.toNat % 2 ^ 32 = 0 := fun h => absurd h h23
    rw [if_neg h23, hself, eq_true himp, and_true, hiff]
    split_ifs at hint <;> omega

/-! ### The words of a constant -/

variable {ε : Type} [Profile]

/-- **Constants of 12 bits.** -/
theorem writes_short {d : Reg} (hd : d ≠ 0) {v : I64} (h : IsShort v) :
    ∃ ws, emitLoadImm64 (ε := ε) (d.setWidth 8) v = .ok ws ∧ ∀ c : Cpu, Writes ws {d} c d v := by
  unfold emitLoadImm64
  by_cases h0 : v = 0
  · subst h0
    rw [if_pos rfl]
    exact ⟨_, rfl, fun c => writes_addi hd c 0 0⟩
  · have hshort : -2048 ≤ v.toInt ∧ v.toInt < 2048 := h
    rw [if_neg h0, if_pos hshort]
    refine ⟨_, rfl, fun c => ?_⟩
    have hzero : ∀ a : U64, 0 + a = a := BitVec.zero_add
    have hw := writes_addi hd c 0 (v.setWidth 32)
    rwa [signExtend_of_isShort h, Cpu.get_zero, hzero] at hw

section

variable {v : I64} (hlow : -2 ^ 31 ≤ v.toInt) (hhigh : v.toInt < 2 ^ 32)

include hlow hhigh

/-- **`LUI`, then `ADDI`** for a lower part that is not zero. -/
theorem writes_split {d : Reg} (hd : d ≠ 0) : ∃ hi lo, splitImm (ε := ε) v = .ok (hi, lo) ∧
    ∀ c : Cpu, Writes (lui (d.setWidth 8) hi ::
      if lo ≠ 0 then [addi (d.setWidth 8) (d.setWidth 8) (signExtend12 lo)] else []) {d} c d
        (BitVec.ofInt 64 (splitValue v.toInt)) := by
  refine ⟨_, _, splitImm_eq v (by omega), fun c => ?_⟩
  have hlui := writes_lui hd c (((v + 0x800).sshiftRight 12).setWidth 32)
  rw [luiValue_eq, toInt_upper hlow hhigh] at hlui
  by_cases hlo : v.setWidth 32 &&& 0xFFF = 0
  · rw [if_neg (not_not.2 hlo), splitValue, ofInt_of_mask_eq_zero hlo, add_zero]
    exact hlui
  · rw [if_pos hlo, splitValue, BitVec.ofInt_add, ← addiValue_eq]
    refine hlui.append fun c' hval _ => ?_
    have haddi := writes_addi hd c' d (signExtend12 (v.setWidth 32 &&& 0xFFF))
    rwa [c'.get_of_ne hd, hval] at haddi

/-- The lower half of a constant in the scratch register, before it is added. -/
theorem writes_lower (h0 : v ≠ 0) : ∃ hi lo ws, splitImm (ε := ε) v = .ok (hi, lo) ∧
    (∀ rd : U8, (if hi ≠ 0 then
        lui tmp hi :: (if lo ≠ 0 then [addi tmp tmp (signExtend12 lo)] else []) ++ [add rd rd tmp]
      else if lo ≠ 0 then [addi tmp 0 (signExtend12 lo), add rd rd tmp] else []) =
        ws ++ [add rd rd tmp]) ∧
    ∀ c : Cpu, Writes ws {23} c 23 (BitVec.ofInt 64 (splitValue v.toInt)) := by
  obtain ⟨hi, lo, hsplit, hwrites⟩ :=
    writes_split (ε := ε) hlow hhigh (d := 23) (by decide)
  obtain ⟨hhieq, hloeq⟩ :=
    Prod.mk.inj (Except.ok.inj (hsplit.symm.trans (splitImm_eq v (by omega))))
  by_cases hhi : hi = 0
  · -- the constant is its own lower part
    have hupper := toInt_upper hlow hhigh
    rw [← hhieq, hhi] at hupper
    have hzero : (0 : I32).toInt = 0 := rfl
    have hvalue : splitValue v.toInt = v.toInt - 4096 * ((v.toInt + 2048) / 4096) := by
      rw [splitValue, ← hupper, hzero]
      ring
    have hlo : lo ≠ 0 := by
      intro hlo
      have hpart := ofInt_of_mask_eq_zero (hloeq.symm.trans hlo)
      have hv : v.toInt = 0 := by omega
      exact h0 (BitVec.toInt_inj.1 hv)
    refine ⟨hi, lo, [addi tmp 0 (signExtend12 lo)], hsplit, fun rd => ?_, fun c => ?_⟩
    · rw [if_neg (not_not.2 hhi), if_pos hlo]
      rfl
    · have hadd : ∀ a : U64, 0 + a = a := BitVec.zero_add
      have haddi := writes_addi (d := 23) (by decide) c 0 (signExtend12 lo)
      rwa [Cpu.get_zero, hadd, hloeq, addiValue_eq, ← hvalue, ← hloeq] at haddi
  · refine ⟨hi, lo, _, hsplit, fun rd => ?_, hwrites⟩
    rw [if_pos hhi]
    rfl

end

/-- **The words of a constant** change its register and the scratch register. -/
theorem writes_loadImm64 {d : Reg} (hd : d ≠ 0) (imm : U64) :
    ∃ ws, emitLoadImm64 (ε := ε) (d.setWidth 8) imm = .ok ws ∧
      ∀ c : Cpu, Writes ws ({d} ∪ {23}) c d (loaded d imm) := by
  have hdset : ({d} : Set Reg) ⊆ {d} ∪ {23} := Set.subset_union_left
  have htmp : ({23} : Set Reg) ⊆ {d} ∪ {23} := Set.subset_union_right
  by_cases hshort : IsShort imm
  · obtain ⟨ws, hws, hwrites⟩ := writes_short (ε := ε) hd hshort
    rw [loaded, if_pos hshort]
    exact ⟨ws, hws, fun c => (hwrites c).mono hdset⟩
  have h0 : imm ≠ 0 := by
    rintro rfl
    exact hshort (by decide)
  have h12 : ¬ (-2048 ≤ imm.toInt ∧ imm.toInt < 2048) := hshort
  rw [loaded, if_neg hshort, emitLoadImm64, if_neg h0, if_neg h12]
  by_cases h32 : -2147483648 ≤ imm.toInt ∧ imm.toInt < 2147483648
  · rw [if_pos h32, if_pos h32]
    obtain ⟨hi, lo, hsplit, hwrites⟩ :=
      writes_split (ε := ε) (v := imm) (by omega) (by omega) hd
    rw [hsplit, ok_bind]
    exact ⟨_, rfl, fun c => (hwrites c).mono hdset⟩
  rw [if_neg h32, if_neg h32]
  obtain ⟨hupper, hlower⟩ := toInt_halves_of imm
  have hlt := imm.isLt
  obtain ⟨hiU, loU, hsplitU, hwritesU⟩ :=
    writes_split (ε := ε) (v := imm >>> 32) (by omega) (by omega) hd
  dsimp only
  rw [hsplitU, ok_bind]
  -- the upper half, shifted to its place
  have hshifted : ∀ c : Cpu, Writes ((lui (d.setWidth 8) hiU ::
      if loU ≠ 0 then [addi (d.setWidth 8) (d.setWidth 8) (signExtend12 loU)] else []) ++
        [slli (d.setWidth 8) (d.setWidth 8) 32]) {d} c d
          (BitVec.ofInt 64 ((2 ^ 32 : ℤ) * splitValue (imm >>> 32).toInt)) := by
    intro c
    refine (hwritesU c).append fun c' hval _ => ?_
    have hslli := writes_shiftImm hd c' 0 1 rfl d 32
    rw [c'.get_of_ne hd, hval] at hslli
    rw [← ofInt_shiftLeft]
    exact hslli
  by_cases hzero : imm &&& 0xFFFFFFFF = 0
  · have hlow : (imm.toNat : ℤ) % 2 ^ 32 = 0 := by
      rw [← hlower, hzero]
      rfl
    have hsplitL := splitImm_eq (ε := ε) (imm &&& 0xFFFFFFFF) (by omega)
    obtain ⟨hhi, hlo⟩ := splitImm_zero (by rw [hzero] at hsplitL; exact hsplitL)
    rw [hzero] at hsplitL
    rw [hzero, hsplitL, ok_bind, hhi, hlo, if_pos hlow, ← hupper]
    refine ⟨_, rfl, fun c => ?_⟩
    rw [if_neg (not_not.2 rfl), if_neg (not_not.2 rfl), List.append_nil]
    exact (hshifted c).mono hdset
  · have hlow : (imm.toNat : ℤ) % 2 ^ 32 ≠ 0 := by
      rw [← hlower]
      exact fun h => hzero (BitVec.toInt_inj.1 h)
    obtain ⟨hiL, loL, low, hsplitL, htail, hwritesL⟩ :=
      writes_lower (ε := ε) (v := imm &&& 0xFFFFFFFF) (by omega) (by omega) hzero
    rw [hsplitL, ok_bind, if_neg hlow, ← hupper, ← hlower]
    refine ⟨_, rfl, fun c => ?_⟩
    dsimp only
    rw [htail]
    refine ((hshifted c).mono hdset).append fun c₁ hval₁ _ => ?_
    obtain ⟨c₂, hline, hval₂, hsame⟩ := hwritesL c₁
    have hadd := writes_op hd c₂ 0 0 rfl d 23
    obtain ⟨c₃, hline₃, hval₃, hsame₃⟩ := writes_op hd c₂ 0 0 rfl d 23
    refine ⟨c₃, hline.append hline₃, ?_, (hsame.mono htmp).trans (hsame₃.mono hdset)⟩
    rw [hval₃, c₂.get_of_ne hd, c₂.get_of_ne (by decide), hval₂]
    dsimp only [DataOp.eval]
    by_cases h23 : d = 23
    · subst h23
      rw [if_pos rfl, hval₂, ← BitVec.ofInt_add, two_mul]
    · rw [if_neg h23, hsame.x d h23, hval₁, BitVec.ofInt_add]

/-- **Constants.**  The words leave the constant iff its upper parts go into `LUI` unchanged without
the shift by 12 bits: they are 0, or -1 for a negative constant. -/
theorem loadImm64_iff {d : Reg} (hd : d ≠ 0) (imm : U64) :
    ∃ ws, emitLoadImm64 (ε := ε) (d.setWidth 8) imm = .ok ws ∧ ∀ c : Cpu,
      (Writes ws ({d} ∪ {23}) c d imm ↔
        (-6144 ≤ imm.toInt ∧ imm.toInt < 2048) ∨ (imm.toNat / 2 ^ 32 < 2048 ∧
          imm.toNat % 2 ^ 32 < 2048 ∧ (d = 23 → imm.toNat % 2 ^ 32 = 0))) := by
  obtain ⟨ws, hemit, hwrites⟩ := writes_loadImm64 (ε := ε) hd imm
  refine ⟨ws, hemit, fun c => ?_⟩
  rw [(hwrites c).iff_eq, loaded_eq_iff]

omit [Profile] in
/-- `loadImm64_iff` at 5. -/
theorem loadImm64_iff_five : (10 : Reg) ≠ 0 ∧
    ∃ ws, @emitLoadImm64 RiscVEmitError debug 10 5 = .ok ws ∧
      ∀ c : Cpu, Writes ws ({10} ∪ {23}) c 10 5 := by
  obtain ⟨ws, hemit, hiff⟩ := @loadImm64_iff RiscVEmitError debug 10 (by decide) 5
  exact ⟨by decide, ws, hemit, fun c => (hiff c).2 (by decide)⟩

omit [Profile] in
/-- Of 2048, -2048 is left. -/
theorem loadImm64_2048 : ¬ ∃ ws, @emitLoadImm64 RiscVEmitError debug 10 2048 = .ok ws ∧
    ∀ c : Cpu, Writes ws ({10} ∪ {23}) c 10 2048 := by
  rintro ⟨ws, hemit, hwrites⟩
  obtain ⟨ws', hemit', hwrites'⟩ := @writes_loadImm64 RiscVEmitError debug 10 (by decide) 2048
  cases hemit.symm.trans hemit'
  let c : Cpu := ⟨fun _ => 0, fun _ => 0, none⟩
  exact absurd ((hwrites c).unique (hwrites' c)) (by decide)

end NVMirror.Riscv
