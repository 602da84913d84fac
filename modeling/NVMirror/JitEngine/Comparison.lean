import NVMirror.JitEngine.Interpreter

/-!
# Comparisons

What a jump compares, for values of any width.

* `JmpOp.holds`: the comparison; that of the interpreter is the one of 64 bits (`evalJmp_eq`).
* `evalJmp_zeroExtend`, `holds_low`: when a comparison of 64 bits has the result of the comparison
  of the lower halves.  For the signed ones, zero extension loses the signs.
-/

namespace NVMirror

/-- A comparison of signed numbers. -/
def JmpOp.isSigned : JmpOp → Bool
  | .jsgt | .jsge | .jslt | .jsle => true
  | _ => false

/-- Does the comparison hold? -/
def JmpOp.holds {w : ℕ} (op : JmpOp) (a b : BitVec w) : Bool :=
  match op with
  | .jeq => a = b
  | .jne => a ≠ b
  | .jgt => b.toNat < a.toNat
  | .jge => b.toNat ≤ a.toNat
  | .jlt => a.toNat < b.toNat
  | .jle => a.toNat ≤ b.toNat
  | .jsgt => b.toInt < a.toInt
  | .jsge => b.toInt ≤ a.toInt
  | .jslt => a.toInt < b.toInt
  | .jsle => a.toInt ≤ b.toInt
  | .jset => a &&& b ≠ 0
  | .ja => true

theorem evalJmp_eq (op : JmpOp) (a b : U64) : evalJmp op a b = op.holds a b := by
  cases op <;> rfl

/-! ### Halves -/

/-- The lower half of a value. -/
def low (v : U64) : U32 := v.setWidth 32

/-- The upper half. -/
def high (v : U64) : U32 := (v >>> 32).setWidth 32

theorem toNat_halves (v : U64) : v.toNat = 2 ^ 32 * (high v).toNat + (low v).toNat := by
  have hlt := v.isLt
  rw [high, low, BitVec.toNat_setWidth, BitVec.toNat_setWidth, BitVec.toNat_ushiftRight,
    Nat.shiftRight_eq_div_pow]
  omega

theorem toInt_halves (v : U64) : v.toInt = 2 ^ 32 * (high v).toInt + (low v).toNat := by
  have hv := BitVec.toInt_eq_toNat_cond v
  have hhigh := BitVec.toInt_eq_toNat_cond (high v)
  have hhalves := toNat_halves v
  have hlow := (low v).isLt
  split_ifs at hv hhigh <;> omega

theorem eq_iff_halves (a b : U64) : a = b ↔ high a = high b ∧ low a = low b := by
  have ha := (low a).isLt
  have hb := (low b).isLt
  rw [← BitVec.toNat_inj, ← BitVec.toNat_inj, ← BitVec.toNat_inj, toNat_halves a, toNat_halves b]
  omega

theorem and_eq_zero_iff_halves (a b : U64) :
    a &&& b = 0 ↔ high a &&& high b = 0 ∧ low a &&& low b = 0 := by
  have hhigh : high (a &&& b) = high a &&& high b := by
    ext i hi
    simp [high]
  have hlow : low (a &&& b) = low a &&& low b := by
    ext i hi
    simp [low]
  rw [eq_iff_halves, hhigh, hlow]
  rfl

/-! ### Comparisons of lower halves -/

/-- The sign of a value is its top bit. -/
theorem toInt_of_msb (v : U32) :
    (v.msb = decide (2 ^ 31 ≤ v.toNat)) ∧
      v.toInt = if 2 ^ 31 ≤ v.toNat then (v.toNat : ℤ) - 2 ^ 32 else (v.toNat : ℤ) := by
  have hmsb := BitVec.msb_eq_decide v
  have hint := BitVec.toInt_eq_toNat_cond v
  refine ⟨hmsb, ?_⟩
  rw [hint]
  split_ifs <;> omega

/-- **Zero extension** keeps a comparison, unless it is signed and the signs differ. -/
theorem evalJmp_zeroExtend (op : JmpOp) (a b : U32) :
    evalJmp op (a.setWidth 64) (b.setWidth 64) = op.holds a b ↔
      (op.isSigned = true → a.msb = b.msb) := by
  have hnat : ∀ v : U32, (v.setWidth 64).toNat = v.toNat := by
    intro v
    rw [BitVec.toNat_setWidth, Nat.mod_eq_of_lt (v.isLt.trans (by decide))]
  have hint : ∀ v : U32, (v.setWidth 64).toInt = v.toNat := by
    intro v
    have hlt := v.isLt
    rw [BitVec.toInt_eq_toNat_cond, hnat, if_pos (by omega)]
  have heq : ∀ v v' : U32, v.setWidth 64 = v'.setWidth 64 ↔ v = v' := by
    intro v v'
    rw [← BitVec.toNat_inj, hnat, hnat, BitVec.toNat_inj]
  have hand : a.setWidth 64 &&& b.setWidth 64 = (a &&& b).setWidth 64 := BitVec.setWidth_and.symm
  obtain ⟨hamsb, haint⟩ := toInt_of_msb a
  obtain ⟨hbmsb, hbint⟩ := toInt_of_msb b
  have ha := a.isLt
  have hb := b.isLt
  rw [evalJmp_eq]
  cases op with
  | ja => simp [JmpOp.holds, JmpOp.isSigned]
  | jset =>
    have hzero := heq (a &&& b) 0
    simp only [JmpOp.holds, JmpOp.isSigned, hand]
    simpa using hzero
  | jeq | jne => simp [JmpOp.holds, JmpOp.isSigned, heq a b]
  | jgt | jge | jlt | jle => simp only [JmpOp.holds, JmpOp.isSigned, hnat]; simp
  | jsgt | jsge | jslt | jsle =>
    simp only [JmpOp.holds, JmpOp.isSigned, hint, decide_eq_decide, forall_const, hamsb, hbmsb]
    split_ifs at haint hbint <;> omega

/-- When the lower halves decide a comparison of 64 bits. -/
def LowDecides (op : JmpOp) (a b : U64) : Prop :=
  if op = .jset then high a &&& high b = 0 ∨ low a &&& low b ≠ 0
  else if high a = high b then op.isSigned = true → (low a).msb = (low b).msb
  else op.holds (high a) (high b) = op.holds (low a) (low b)

instance (op : JmpOp) (a b : U64) : Decidable (LowDecides op a b) :=
  inferInstanceAs (Decidable (ite _ _ _))

/-- **Lower halves.** -/
theorem holds_low (op : JmpOp) (a b : U64) :
    op.holds a b = op.holds (low a) (low b) ↔ LowDecides op a b := by
  have hanat := toNat_halves a
  have hbnat := toNat_halves b
  have haint := toInt_halves a
  have hbint := toInt_halves b
  have halow := (low a).isLt
  have hblow := (low b).isLt
  obtain ⟨hamsb, hasigned⟩ := toInt_of_msb (low a)
  obtain ⟨hbmsb, hbsigned⟩ := toInt_of_msb (low b)
  have hnat : high a = high b ↔ (high a).toNat = (high b).toNat := BitVec.toNat_inj.symm
  have hint : high a = high b ↔ (high a).toInt = (high b).toInt := BitVec.toInt_inj.symm
  unfold LowDecides
  by_cases hset : op = .jset
  · subst hset
    rw [if_pos rfl]
    simp only [JmpOp.holds, ne_eq, and_eq_zero_iff_halves, decide_eq_decide]
    tauto
  rw [if_neg hset]
  by_cases h : high a = high b
  · rw [if_pos h]
    have hnat := hnat.1 h
    have hint := hint.1 h
    cases op with
    | jset => exact absurd rfl hset
    | ja => simp [JmpOp.holds, JmpOp.isSigned]
    | jeq | jne => simp [JmpOp.holds, JmpOp.isSigned, eq_iff_halves a b, h]
    | jgt | jge | jlt | jle =>
      have hop : ∀ p q : Prop, (p ↔ q) → ((p ↔ q) ↔ (false = true → (low a).msb = (low b).msb)) :=
        fun p q hpq => ⟨fun _ hf => (Bool.false_ne_true hf).elim, fun _ => hpq⟩
      simp only [JmpOp.holds, JmpOp.isSigned, decide_eq_decide]
      refine hop _ _ ?_
      omega
    | jsgt | jsge | jslt | jsle =>
      simp only [JmpOp.holds, JmpOp.isSigned, decide_eq_decide, forall_const, hamsb, hbmsb]
      split_ifs at hasigned hbsigned <;> omega
  · rw [if_neg h]
    have hnat := mt hnat.2 h
    have hint := mt hint.2 h
    cases op with
    | jset => exact absurd rfl hset
    | ja => simp [JmpOp.holds]
    | jeq | jne => simp [JmpOp.holds, eq_iff_halves a b, h]
    | _ =>
      simp only [JmpOp.holds, decide_eq_decide]
      omega

end NVMirror
