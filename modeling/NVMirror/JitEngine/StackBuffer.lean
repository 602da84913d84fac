import NVMirror.JitEngine.Steps

/-!
# The stack buffer of the interpreter

When the accesses of the interpreter complete, and what they read and write.

* `stackRel_eq_ok`: the index of an address, unless an addition overflows.
* `readStack_eq_ok`, `writeStack_eq_ok`: an access completes unless index plus width overflows, in
  every profile: where the sum wraps around, the slice index is out of range.
-/

namespace NVMirror

open Rust Bytes

theorem toNat_byteLen (width : MemWidth) :
    (BitVec.ofNat 64 width.byteLen).toNat = width.byteLen := by
  cases width <;> rfl

theorem uaddOverflow_eq_false {x y : U64} :
    BitVec.uaddOverflow x y = false ↔ x.toNat + y.toNat < 2 ^ 64 := by
  rw [BitVec.uaddOverflow, decide_eq_false_iff_not, not_le]

theorem saddOverflow_eq_false {x y : U64} :
    BitVec.saddOverflow x y = false ↔
      -2 ^ 63 ≤ x.toInt + y.toInt ∧ x.toInt + y.toInt < 2 ^ 63 := by
  rw [BitVec.saddOverflow, Bool.or_eq_false_iff, decide_eq_false_iff_not, decide_eq_false_iff_not]
  norm_num
  omega

section

variable [Profile] {ε : Type}

/-- An operation completes unless it overflows in a build with overflow checks. -/
theorem exists_overflowing_iff {α : Type} {o : Bool} {x : α} :
    (∃ a, overflowing (ε := ε) o x = .ok a) ↔ (Profile.overflowChecks → o = false) := by
  unfold overflowing
  cases Profile.overflowChecks <;> cases o <;> simp

theorem overflowing_eq_ok {α : Type} {o : Bool} {x y : α} :
    overflowing (ε := ε) o x = .ok y ↔ (Profile.overflowChecks → o = false) ∧ y = x := by
  constructor
  · exact fun h => ⟨exists_overflowing_iff.1 ⟨y, h⟩, eq_of_overflowing h⟩
  · rintro ⟨h, rfl⟩
    obtain ⟨a, ha⟩ := (exists_overflowing_iff (ε := ε) (x := y)).2 h
    rw [ha, eq_of_overflowing ha]

end

variable [Profile]

/-! ### Addresses -/

/-- The address computation of an access does not overflow: neither base plus offset, nor the end
of the buffer. -/
structure AddressFits (stackPtr base : U64) (off : I16) : Prop where
  sum : -2 ^ 63 ≤ base.toInt + off.toInt ∧ base.toInt + off.toInt < 2 ^ 63
  top : stackPtr.toNat + stackSize < 2 ^ 64

/-- The index of an address in the buffer. -/
theorem stackRel_eq_ok {stackPtr base : U64} {off : I16} {rel : U64} :
    stackRel stackPtr base off = .ok rel ↔
      (Profile.overflowChecks → AddressFits stackPtr base off) ∧
        rel = base + off.signExtend 64 - stackPtr := by
  have hoff : (off.signExtend 64).toInt = off.toInt := BitVec.toInt_signExtend_of_le (by decide)
  have hsize : (BitVec.ofNat 64 stackSize).toNat = stackSize := rfl
  unfold stackRel addS addU
  rw [bind_eq_ok]
  simp only [bind_eq_ok, overflowing_eq_ok, saddOverflow_eq_false, uaddOverflow_eq_false, hoff,
    hsize, pure_eq, Except.ok.injEq]
  constructor
  · rintro ⟨addr, ⟨h1, rfl⟩, top, ⟨h2, rfl⟩, rfl⟩
    exact ⟨fun hc => ⟨h1 hc, h2 hc⟩, by rw [BitVec.add_sub_cancel]⟩
  · rintro ⟨hfits, rfl⟩
    exact ⟨_, ⟨fun hc => (hfits hc).sum, rfl⟩, _, ⟨fun hc => (hfits hc).top, rfl⟩,
      by rw [BitVec.add_sub_cancel]⟩

/-! ### Accesses -/

/-- A byte of the buffer; past its end 0. -/
def stackByte (stack : Fin stackSize → U8) (i : ℕ) : U8 :=
  if h : i < stackSize then stack ⟨i, h⟩ else 0

/-- The value an access at index `rel` reads. -/
def stackValue (stack : Fin stackSize → U8) (rel : ℕ) (width : MemWidth) : U64 :=
  if rel + width.byteLen ≤ stackSize then
    ofLeBytes 64 ((List.range width.byteLen).map fun i => stackByte stack (rel + i))
  else 0

/-- The buffer after an access at index `rel` has written `val`. -/
def stackWritten (stack : Fin stackSize → U8) (rel : ℕ) (width : MemWidth) (val : U64) :
    Fin stackSize → U8 :=
  if rel + width.byteLen ≤ stackSize then
    fun j => if rel ≤ j ∧ j < rel + width.byteLen then byteAt val (j - rel) else stack j
  else stack

omit [Profile] in
theorem mapM_stackAt {stack : Fin stackSize → U8} {rel n : ℕ} (h : rel + n ≤ stackSize) :
    ((List.range n).mapM fun i => stackAt stack (rel + i)) =
      .ok ((List.range n).map fun i => stackByte stack (rel + i)) := by
  have hall : ∀ is : List ℕ, (∀ i ∈ is, i < n) →
      (is.mapM fun i => stackAt stack (rel + i)) =
        .ok (is.map fun i => stackByte stack (rel + i)) := by
    intro is hlt
    induction is with
    | nil => rfl
    | cons i is ih =>
      have hi : rel + i < stackSize := by
        have := hlt i List.mem_cons_self
        omega
      have hbyte : stackAt stack (rel + i) = .ok (stackByte stack (rel + i)) := by
        unfold stackAt stackByte
        rw [dif_pos hi, dif_pos hi]
        rfl
      rw [List.mapM_cons, hbyte, ok_bind, ih fun j hj => hlt j (List.mem_cons_of_mem _ hj)]
      rfl
  exact hall _ fun i hi => List.mem_range.1 hi

/-- The end of an access, where it does not overflow, or wraps around to the first bytes. -/
theorem addU_byteLen {rel : U64} {width : MemWidth} {stop : U64}
    (h : addU (ε := Empty) rel (BitVec.ofNat 64 width.byteLen) = .ok stop) :
    rel.toNat + width.byteLen < 2 ^ 64 ∧ stop.toNat = rel.toNat + width.byteLen ∨
      2 ^ 64 ≤ rel.toNat + width.byteLen ∧ stop.toNat ≤ 8 := by
  have hle := width.byteLen_le
  have hlt := rel.isLt
  obtain ⟨-, rfl⟩ := overflowing_eq_ok.1 h
  rw [BitVec.toNat_add, toNat_byteLen]
  omega

theorem addU_byteLen_of_lt {rel : U64} {width : MemWidth}
    (h : rel.toNat + width.byteLen < 2 ^ 64) : ∃ stop : U64,
      addU (ε := Empty) rel (BitVec.ofNat 64 width.byteLen) = .ok stop ∧
        stop.toNat = rel.toNat + width.byteLen := by
  refine ⟨_, overflowing_eq_ok.2 ⟨fun _ => uaddOverflow_eq_false.2 ?_, rfl⟩, ?_⟩
  · rwa [toNat_byteLen]
  · rw [BitVec.toNat_add, toNat_byteLen, Nat.mod_eq_of_lt h]

theorem readStack_eq_ok {stack : Fin stackSize → U8} {rel : U64} {width : MemWidth} {v : U64} :
    readStack stack rel width = .ok v ↔
      rel.toNat + width.byteLen < 2 ^ 64 ∧ v = stackValue stack rel.toNat width := by
  constructor
  · intro h
    obtain ⟨stop, hadd, h⟩ := bind_eq_ok.1 h
    have hle := width.byteLen_le
    rcases addU_byteLen hadd with ⟨hlt, hstop⟩ | ⟨hge, hstop⟩
    · refine ⟨hlt, ?_⟩
      rw [hstop] at h
      unfold stackValue
      by_cases hend : rel.toNat + width.byteLen ≤ stackSize
      · rw [if_neg (not_lt.2 hend), if_neg (by omega), mapM_stackAt hend] at h
        rw [if_pos hend]
        exact (Except.ok.inj h).symm
      · rw [if_pos (not_le.1 hend)] at h
        rw [if_neg hend]
        exact (Except.ok.inj h).symm
    · -- the sum wraps around, and the slice is out of range
      unfold stackSize at h
      rw [if_neg (by omega), if_pos (by omega)] at h
      cases h
  · rintro ⟨hlt, rfl⟩
    obtain ⟨stop, hadd, hstop⟩ := addU_byteLen_of_lt hlt
    unfold readStack stackValue
    rw [hadd, ok_bind, hstop]
    by_cases hend : rel.toNat + width.byteLen ≤ stackSize
    · rw [if_neg (not_lt.2 hend), if_neg (by omega), mapM_stackAt hend, if_pos hend]
      rfl
    · rw [if_pos (not_le.1 hend), if_neg hend]
      rfl

theorem writeStack_eq_ok {stack stack' : Fin stackSize → U8} {rel : U64} {width : MemWidth}
    {val : U64} :
    writeStack stack rel width val = .ok stack' ↔
      rel.toNat + width.byteLen < 2 ^ 64 ∧ stack' = stackWritten stack rel.toNat width val := by
  constructor
  · intro h
    obtain ⟨stop, hadd, h⟩ := bind_eq_ok.1 h
    have hle := width.byteLen_le
    rcases addU_byteLen hadd with ⟨hlt, hstop⟩ | ⟨hge, hstop⟩
    · refine ⟨hlt, ?_⟩
      rw [hstop] at h
      unfold stackWritten
      by_cases hend : rel.toNat + width.byteLen ≤ stackSize
      · rw [if_neg (not_lt.2 hend), if_neg (not_lt.2 hend)] at h
        rw [if_pos hend]
        exact (Except.ok.inj h).symm
      · rw [if_pos (not_le.1 hend)] at h
        rw [if_neg hend]
        exact (Except.ok.inj h).symm
    · unfold stackSize at h
      rw [if_neg (by omega), if_pos (by omega)] at h
      cases h
  · rintro ⟨hlt, rfl⟩
    obtain ⟨stop, hadd, hstop⟩ := addU_byteLen_of_lt hlt
    unfold writeStack stackWritten
    rw [hadd, ok_bind, hstop]
    by_cases hend : rel.toNat + width.byteLen ≤ stackSize
    · rw [if_neg (not_lt.2 hend), if_neg (not_lt.2 hend), if_pos hend]
      rfl
    · rw [if_pos (not_le.1 hend), if_neg hend]
      rfl

end NVMirror
