import Mathlib.Tactic

/-!
# Fields of a word

A word put together from an opcode and operands, each shifted to its place, is read field by field:
`field_put` gives an operand back, `field_put_above` and `field_put_below` say that it does not
reach into other fields.  `and_mask` turns a mask into a truncation.
-/

namespace Fields

/-- The `len` bits of a word from bit `lo` on. -/
def field {w : ℕ} (x : BitVec w) (lo len : ℕ) : BitVec len := x.extractLsb' lo len

@[simp] theorem field_or {w : ℕ} (a b : BitVec w) (lo len : ℕ) :
    field (a ||| b) lo len = field a lo len ||| field b lo len :=
  BitVec.extractLsb'_or

section

variable {k : ℕ} (v : BitVec k) {p lo len : ℕ}

/-- A value stands in its own field. -/
@[simp] theorem field_put (h : p + k ≤ 32) : field (v.setWidth 32 <<< p) p k = v := by
  ext i hi
  have hlt : p + i < 32 := by omega
  simp [field, hlt, BitVec.getLsbD_eq_getElem hi]

/-- Fields above a value. -/
@[simp] theorem field_put_above (h : p + k ≤ lo) :
    field (v.setWidth 32 <<< p) lo len = BitVec.ofNat len 0 := by
  ext i hi
  have hbit : v.getLsbD (lo + i - p) = false := BitVec.getLsbD_of_ge _ _ (by omega)
  simp [field, hbit]

/-- Fields below a value. -/
@[simp] theorem field_put_below (h : lo + len ≤ p) :
    field (v.setWidth 32 <<< p) lo len = BitVec.ofNat len 0 := by
  ext i hi
  have hlt : lo + i < p := by omega
  simp [field, hlt]

/-- A field inside a value. -/
theorem field_put_inside (hp : p ≤ lo) (hk : lo + len ≤ p + k) (h : p + k ≤ 32) :
    field (v.setWidth 32 <<< p) lo len = field v (lo - p) len := by
  ext i hi
  have hlt : lo + i < 32 := by omega
  have hge : ¬ lo + i < p := by omega
  have hsub : lo + i - p = lo - p + i := by omega
  simp [field, hlt, hge, hsub]

/-- A value at the bottom. -/
@[simp] theorem field_low (h : k ≤ 32) : field (v.setWidth 32) 0 k = v := by
  have hput := field_put (p := 0) v (by omega)
  rwa [BitVec.shiftLeft_zero] at hput

/-- Fields above a value at the bottom. -/
@[simp] theorem field_low_above (h : k ≤ lo) :
    field (v.setWidth 32) lo len = BitVec.ofNat len 0 := by
  have hput : field (v.setWidth 32 <<< 0) lo len = BitVec.ofNat len 0 :=
    field_put_above v (by omega)
  rwa [BitVec.shiftLeft_zero] at hput

end

/-- A mask cuts a value to its field. -/
theorem and_mask {w : ℕ} (v : BitVec w) {k : ℕ} (hk : k < w) :
    v &&& BitVec.ofNat w (2 ^ k - 1) = (v.setWidth k).setWidth w := by
  have hpow : 2 ^ k < 2 ^ w := Nat.pow_lt_pow_right (by omega) hk
  have hmod : v.toNat % 2 ^ k < 2 ^ k := Nat.mod_lt _ (by positivity)
  refine BitVec.eq_of_toNat_eq ?_
  rw [BitVec.toNat_and, BitVec.toNat_setWidth, BitVec.toNat_setWidth, BitVec.toNat_ofNat,
    Nat.mod_eq_of_lt (a := 2 ^ k - 1) (by omega), Nat.and_two_pow_sub_one_eq_mod,
    Nat.mod_eq_of_lt (hmod.trans hpow)]

/-- A negated mask clears the lowest bits. -/
theorem toNat_and_not_mask {w : ℕ} (x : BitVec w) (k : ℕ) :
    (x &&& ~~~(BitVec.ofNat w (2 ^ k - 1))).toNat = x.toNat / 2 ^ k * 2 ^ k := by
  have hshift : x &&& ~~~(BitVec.ofNat w (2 ^ k - 1)) = (x >>> k) <<< k := by
    ext i hi
    have hmask : (BitVec.ofNat w (2 ^ k - 1))[i] = decide (i < k) := by
      rw [← BitVec.getLsbD_eq_getElem, BitVec.getLsbD_ofNat, Nat.testBit_two_pow_sub_one]
      simp [hi]
    rw [BitVec.getElem_and, BitVec.getElem_not, hmask, BitVec.getElem_shiftLeft]
    by_cases hik : i < k
    · simp [hik]
    · have hsum : k + (i - k) = i := Nat.add_sub_cancel' (not_lt.1 hik)
      simp [hik, hsum, BitVec.getLsbD_eq_getElem hi]
  have hle : x.toNat / 2 ^ k * 2 ^ k ≤ x.toNat := Nat.div_mul_le_self _ _
  rw [hshift, BitVec.toNat_shiftLeft, BitVec.toNat_ushiftRight, Nat.shiftLeft_eq,
    Nat.shiftRight_eq_div_pow, Nat.mod_eq_of_lt (hle.trans_lt x.isLt)]
/-- A mask with ones at the place of a value keeps it. -/
theorem put_and_mask {k : ℕ} (v : BitVec k) {p : ℕ} (mask : BitVec 32)
    (hones : field mask p k = BitVec.allOnes k) :
    (v.setWidth 32 <<< p) &&& mask = v.setWidth 32 <<< p := by
  ext i hi
  by_cases hp : i < p
  · simp [hp]
  by_cases hk : i - p < k
  · have hbit : (field mask p k).getLsbD (i - p) = true := by
      rw [hones]
      simp [hk]
    have hsub : p + (i - p) = i := by omega
    rw [field, BitVec.getLsbD_extractLsb', hsub] at hbit
    have hmask : mask[i] = true := by simpa [hk, BitVec.getLsbD_eq_getElem hi] using hbit
    rw [BitVec.getElem_and, hmask, Bool.and_true]
  · have hzero : v.getLsbD (i - p) = false := BitVec.getLsbD_of_ge _ _ (by omega)
    simp [hp, hzero]

/-- A mask of a field. -/
theorem and_fieldMask (x : BitVec 32) (p k : ℕ) :
    x &&& ((BitVec.allOnes k).setWidth 32 <<< p) = (field x p k).setWidth 32 <<< p := by
  ext i hi
  by_cases hp : i < p
  · simp [hp]
  · have hsub : p + (i - p) = i := by omega
    by_cases hk : i - p < k <;> simp [field, hp, hk, hsub, BitVec.getLsbD_eq_getElem hi]

theorem field_and {w : ℕ} (a b : BitVec w) (lo len : ℕ) :
    field (a &&& b) lo len = field a lo len &&& field b lo len := by
  ext i hi
  simp [field]

/-- A field of a value that stands at the bottom. -/
theorem field_setWidth {w k : ℕ} (x : BitVec w) (lo len : ℕ) (h : lo + len ≤ k) :
    field (x.setWidth k) lo len = field x lo len := by
  ext i hi
  have hlt : lo + i < k := by omega
  simp [field, hlt]

/-- The field at the bottom. -/
theorem field_zero {w : ℕ} (x : BitVec w) (k : ℕ) : field x 0 k = x.setWidth k := by
  ext i hi
  simp [field]

/-- A masked shift is a field. -/
theorem sshiftRight_and {w : ℕ} (x : BitVec w) (p : ℕ) {k : ℕ} (h : p + k ≤ w) (hk : k < w) :
    x.sshiftRight p &&& BitVec.ofNat w (2 ^ k - 1) = (field x p k).setWidth w := by
  rw [and_mask _ hk]
  congr 1
  ext i hi
  have hlt : i < w := by omega
  have hlt' : p + i < w := by omega
  simp [field, BitVec.getElem_sshiftRight, hlt, hlt', BitVec.getLsbD_eq_getElem]

/-- Two fields next to each other. -/
theorem field_append {w : ℕ} (x : BitVec w) (lo len len' : ℕ) :
    field x (lo + len) len' ++ field x lo len = field x lo (len' + len) := by
  ext i hi
  rw [BitVec.getElem_append]
  simp only [field, BitVec.getElem_extractLsb']
  split_ifs with h
  · rfl
  · congr 1
    omega

/-- The number of two values next to each other. -/
theorem toNat_append_eq {m n : ℕ} (x : BitVec m) (y : BitVec n) :
    (x ++ y).toNat = 2 ^ n * x.toNat + y.toNat := by
  rw [BitVec.toNat_append, ← Nat.shiftLeft_add_eq_or_of_lt y.isLt, Nat.shiftLeft_eq, Nat.mul_comm]

/-- The number of a field. -/
theorem toNat_field {w : ℕ} (x : BitVec w) (lo len : ℕ) :
    (field x lo len).toNat = x.toNat / 2 ^ lo % 2 ^ len := by
  rw [field, BitVec.extractLsb'_toNat, Nat.shiftRight_eq_div_pow]

end Fields
