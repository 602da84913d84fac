import NVMirror.EbpfCore.Slots

/-!
# Decoding two programs in a row

The decoder reads `a ++ b` by reading `a` and then `b`.

* `decodeInsn_append_right`: reading in `b` is the same, the positions in errors aside.
* `decodeInsn_append_left`: reading in `a` is the same, unless an `LDDW` is cut off at its end.
* `sum_slots_of_decodeProgram`: no slot of an accepted program is lost.
* `decodeProgram_append`: the programs decoded, and the errors.
-/

namespace NVMirror

open Rust

/-- Move the position an error names by `k` slots. -/
def DecodeError.shift (k : ℕ) : DecodeError → DecodeError
  | .unknownOpcode pc opcode => .unknownOpcode (k + pc) opcode
  | .invalidRegister pc raw => .invalidRegister (k + pc) raw
  | .truncatedWideInsn pc => .truncatedWideInsn (k + pc)
  | .programTooLarge count => .programTooLarge count
  | .emptyProgram => .emptyProgram
  | .invalidAtomicOp pc imm => .invalidAtomicOp (k + pc) imm
  | .invalidEndianWidth pc imm => .invalidEndianWidth (k + pc) imm

/-- The two-slot instruction. -/
def Insn.isLoadImm64 : Insn → Bool
  | .loadImm64 .. => true
  | _ => false

/-- The fault is a cut-off `LDDW`. -/
def Truncated (f : Fault DecodeError) : Prop := ∃ pc, f = .err (.truncatedWideInsn pc)

/-! ### One slot -/

section OneSlot

variable {r : RawInsn} {pc k : ℕ}

theorem decodeReg_shift {raw : U8} :
    decodeReg raw (k + pc) = mapErr (DecodeError.shift k) (decodeReg raw pc) := by
  unfold decodeReg
  rw [mapErr_okOr]
  rfl

theorem decodeSource_shift :
    decodeSource r (k + pc) = mapErr (DecodeError.shift k) (decodeSource r pc) := by
  unfold decodeSource
  rw [apply_ite (mapErr _), mapErr_bind, decodeReg_shift]
  rfl

theorem decodeAlu_shift {is64 : Bool} :
    decodeAlu r (k + pc) is64 = mapErr (DecodeError.shift k) (decodeAlu r pc is64) := by
  unfold decodeAlu
  simp only [mapErr_bind, apply_ite (mapErr _), mapErr_okOr, decodeReg_shift, decodeSource_shift]
  rfl

theorem decodeJmp_shift :
    decodeJmp r (k + pc) = mapErr (DecodeError.shift k) (decodeJmp r pc) := by
  unfold decodeJmp
  simp only [mapErr_bind, apply_ite (mapErr _), mapErr_okOr, decodeReg_shift, decodeSource_shift]
  rfl

theorem decodeJmp32_shift :
    decodeJmp32 r (k + pc) = mapErr (DecodeError.shift k) (decodeJmp32 r pc) := by
  unfold decodeJmp32
  simp only [mapErr_bind, mapErr_okOr, decodeReg_shift, decodeSource_shift]
  rfl

theorem decodeLdx_shift :
    decodeLdx r (k + pc) = mapErr (DecodeError.shift k) (decodeLdx r pc) := by
  unfold decodeLdx
  simp only [mapErr_bind, mapErr_okOr, decodeReg_shift]
  rfl

theorem decodeAtomicOp_shift {imm : U32} :
    decodeAtomicOp imm (k + pc) = mapErr (DecodeError.shift k) (decodeAtomicOp imm pc) := by
  unfold decodeAtomicOp
  simp only [apply_ite (mapErr _)]
  rfl

theorem decodeStx_shift :
    decodeStx r (k + pc) = mapErr (DecodeError.shift k) (decodeStx r pc) := by
  unfold decodeStx
  simp only [mapErr_bind, apply_ite (mapErr _), mapErr_okOr, decodeReg_shift,
    decodeAtomicOp_shift]
  rfl

theorem decodeSt_shift :
    decodeSt r (k + pc) = mapErr (DecodeError.shift k) (decodeSt r pc) := by
  unfold decodeSt
  simp only [mapErr_bind, mapErr_okOr, decodeReg_shift]
  rfl

theorem index_append_right {ε α : Type} (xs ys : List α) (i : ℕ) :
    index (ε := ε) (xs ++ ys) (xs.length + i) = index ys i := by
  unfold index
  rw [List.getElem?_append_right (by omega), Nat.add_sub_cancel_left]

theorem index_append_left {ε α : Type} {xs : List α} (ys : List α) {i : ℕ} (h : i < xs.length) :
    index (ε := ε) (xs ++ ys) i = index xs i := by
  unfold index
  rw [List.getElem?_append_left h]

end OneSlot

variable {a b : List RawInsn} {pc : ℕ}

theorem decodeLddw_append_right {r : RawInsn} (hlen : a.length + b.length ≤ maxInsns)
    (hpc : pc < b.length) :
    decodeLddw (a ++ b) r (a.length + pc) =
      mapErr (DecodeError.shift a.length) (decodeLddw b r pc) := by
  unfold maxInsns at hlen
  unfold decodeLddw
  have hadd : ∀ q : ℕ, q < 2 ^ 32 → usizeAdd (ε := DecodeError) q 1 = .ok (q + 1) :=
    fun q hq => usizeAdd_of_lt (by omega)
  rw [hadd _ (by omega), hadd _ (by omega), ok_bind, ok_bind, List.length_append, Nat.add_assoc,
    index_append_right]
  simp only [apply_ite (mapErr _), mapErr_bind, decodeReg_shift, Nat.add_le_add_iff_left]
  have hindex : mapErr (DecodeError.shift a.length) (index b (pc + 1)) = index b (pc + 1) := by
    unfold index
    cases b[pc + 1]? <;> rfl
  rw [hindex]
  rfl

/-- Reading in the second program. -/
theorem decodeInsn_append_right (hlen : a.length + b.length ≤ maxInsns) (hpc : pc < b.length) :
    decodeInsn (a ++ b) (a.length + pc) =
      mapErr (DecodeError.shift a.length) (decodeInsn b pc) := by
  unfold decodeInsn
  rw [index_append_right, index_of_getElem? (List.getElem?_eq_getElem hpc), ok_bind, ok_bind]
  simp only [apply_ite (mapErr _), mapErr_bind, decodeAlu_shift, decodeJmp_shift,
    decodeJmp32_shift, decodeLdx_shift, decodeStx_shift, decodeSt_shift,
    decodeLddw_append_right hlen hpc]
  rfl

/-- Reading in the first program, at an `LDDW`. -/
theorem decodeLddw_append_left {r : RawInsn} (hlen : a.length + b.length ≤ maxInsns)
    (hpc : pc < a.length) (hcut : ∀ f, decodeLddw a r pc = .error f → ¬ Truncated f) :
    decodeLddw (a ++ b) r pc = decodeLddw a r pc := by
  unfold maxInsns at hlen
  unfold decodeLddw at hcut ⊢
  have hadd : usizeAdd (ε := DecodeError) pc 1 = .ok (pc + 1) := usizeAdd_of_lt (by omega)
  simp only [hadd, ok_bind] at hcut ⊢
  split_ifs at hcut ⊢ with hwide hend hend'
  · rfl
  · rw [List.length_append] at hend
    omega
  · exact absurd ⟨pc, rfl⟩ (hcut _ rfl)
  · rw [index_append_left b (by omega)]
  · rfl

/-- Reading in the first program. -/
theorem decodeInsn_append_left (hlen : a.length + b.length ≤ maxInsns) (hpc : pc < a.length)
    (hcut : ∀ f, decodeInsn a pc = .error f → ¬ Truncated f) :
    decodeInsn (a ++ b) pc = decodeInsn a pc := by
  unfold decodeInsn at hcut ⊢
  have hindex : index (ε := DecodeError) a pc = .ok a[pc] :=
    index_of_getElem? (List.getElem?_eq_getElem hpc)
  simp only [index_append_left b hpc, hindex, ok_bind] at hcut ⊢
  split_ifs at hcut ⊢
  iterate 7 rfl
  · rw [decodeLddw_append_left hlen hpc fun f hf => hcut f (by rw [hf]; rfl)]
  · rfl

/-! ### The loop -/

/-- Fuel beyond the number of slots left is not used. -/
theorem decodeLoop_fuel {raw : List RawInsn} (hlen : raw.length ≤ maxInsns) (fuel n : ℕ)
    (pc : ℕ) (acc : List Insn) (hfuel : raw.length ≤ pc + fuel) :
    decodeLoop raw (fuel + n) pc acc = decodeLoop raw fuel pc acc := by
  induction fuel generalizing pc acc with
  | zero =>
    have hend : ¬ pc < raw.length := by omega
    rw [decodeLoop, if_neg hend, Nat.zero_add]
    cases n with
    | zero => rw [decodeLoop, if_neg hend]
    | succ n => rw [decodeLoop, if_neg hend]
  | succ fuel ih =>
    rw [Nat.add_right_comm, decodeLoop, decodeLoop]
    by_cases hlt : pc < raw.length
    · rw [if_pos hlt, if_pos hlt]
      have hm := decodeInsn_meets hlt hlen
      cases hd : decodeInsn raw pc with
      | error f => rfl
      | ok x =>
        obtain ⟨insn, size⟩ := x
        rw [hd] at hm
        obtain ⟨hsize, -, hle⟩ := hm
        have hone := insn.one_le_slots
        dsimp only at hsize hle
        unfold maxInsns at hlen
        simp only [ok_bind, usizeAdd_of_lt (show pc + size < 2 ^ 64 by omega)]
        exact ih _ _ (by omega)
    · rw [if_neg hlt, if_neg hlt]

/-- The instructions decoded so far are a prefix of the result. -/
theorem decodeLoop_acc {raw : List RawInsn} (fuel pc : ℕ) (xs ys : List Insn) :
    decodeLoop raw fuel pc (xs ++ ys) = (decodeLoop raw fuel pc ys).map (xs ++ ·) := by
  induction fuel generalizing pc ys with
  | zero =>
    rw [decodeLoop, decodeLoop]
    split_ifs <;> rfl
  | succ fuel ih =>
    rw [decodeLoop, decodeLoop]
    split_ifs with hlt
    · cases decodeInsn raw pc with
      | error f => rfl
      | ok x =>
        simp only [ok_bind]
        cases usizeAdd (ε := DecodeError) pc x.2 with
        | error f => rfl
        | ok pc' =>
          rw [ok_bind, ok_bind, List.append_assoc]
          exact ih pc' _
    · rfl

/-- The loop in the second program. -/
theorem decodeLoop_append_right (hlen : a.length + b.length ≤ maxInsns) (fuel pc : ℕ)
    (acc : List Insn) :
    decodeLoop (a ++ b) fuel (a.length + pc) acc =
      mapErr (DecodeError.shift a.length) (decodeLoop b fuel pc acc) := by
  have hlt : ∀ q, a.length + q < (a ++ b).length ↔ q < b.length := fun q => by
    rw [List.length_append, Nat.add_lt_add_iff_left]
  have hmax : a.length + b.length < 2 ^ 32 := by
    unfold maxInsns at hlen
    omega
  induction fuel generalizing pc acc with
  | zero =>
    rw [decodeLoop, decodeLoop]
    simp only [hlt]
    split_ifs <;> rfl
  | succ fuel ih =>
    rw [decodeLoop, decodeLoop]
    simp only [hlt]
    by_cases hpc : pc < b.length
    · rw [if_pos hpc, if_pos hpc, decodeInsn_append_right hlen hpc]
      have hm := decodeInsn_meets hpc (by omega)
      cases hd : decodeInsn b pc with
      | error f => rfl
      | ok x =>
        obtain ⟨insn, size⟩ := x
        rw [hd] at hm
        obtain ⟨-, -, hle⟩ := hm
        dsimp only at hle
        simp only [ok_bind, mapErr_ok, usizeAdd_of_lt (show pc + size < 2 ^ 64 by omega),
          usizeAdd_of_lt (show a.length + pc + size < 2 ^ 64 by omega), Nat.add_assoc]
        exact ih _ _
    · rw [if_neg hpc, if_neg hpc]
      rfl

/-- The loop in the first program: it arrives at the second one, or fails in the same way. -/
theorem decodeLoop_append_left (hlen : a.length + b.length ≤ maxInsns) (fuel pc : ℕ)
    (acc : List Insn) (hfuel : a.length ≤ pc + fuel) (hpc : pc ≤ a.length)
    (hacc : (acc.map Insn.slots).sum = pc) :
    Meets (decodeLoop a fuel pc acc)
      (fun xs => (xs.map Insn.slots).sum = a.length ∧
        decodeLoop (a ++ b) (fuel + b.length) pc acc = decodeLoop (a ++ b) b.length a.length xs)
      (fun f => ¬ Truncated f →
        decodeLoop (a ++ b) (fuel + b.length) pc acc = .error f) := by
  have hab : (a ++ b).length ≤ maxInsns := by rwa [List.length_append]
  have hend : ∀ n xs, decodeLoop (a ++ b) (n + b.length) a.length xs =
      decodeLoop (a ++ b) b.length a.length xs := fun n xs => by
    rw [Nat.add_comm]
    exact decodeLoop_fuel hab _ _ _ _ (by rw [List.length_append])
  induction fuel generalizing pc acc with
  | zero =>
    obtain rfl : pc = a.length := by omega
    rw [decodeLoop, if_neg (lt_irrefl _)]
    exact Meets.ok ⟨hacc, hend 0 acc⟩
  | succ fuel ih =>
    rw [decodeLoop]
    split_ifs with hlt
    · rw [Nat.add_right_comm, decodeLoop, if_pos (by rw [List.length_append]; omega)]
      have hm := decodeInsn_meets hlt (by omega)
      have hleft := decodeInsn_append_left (b := b) hlen hlt
      cases hd : decodeInsn a pc with
      | error f =>
        intro hcut
        rw [hleft fun f' hf' => by rw [hd] at hf'; cases hf'; exact hcut, hd]
        rfl
      | ok x =>
        obtain ⟨insn, size⟩ := x
        rw [hd] at hm
        obtain ⟨hsize, -, hle⟩ := hm
        dsimp only at hsize hle
        have hone := insn.one_le_slots
        unfold maxInsns at hlen
        have hsame : decodeInsn (a ++ b) pc = .ok (insn, size) := by
          rw [hleft fun f hf => absurd (hd.symm.trans hf) (by simp), hd]
        simp only [hsame, ok_bind, usizeAdd_of_lt (show pc + size < 2 ^ 64 by omega)]
        exact ih _ _ (by omega) hle (by simp [hacc, hsize])
    · obtain rfl : pc = a.length := by omega
      exact Meets.ok ⟨hacc, hend _ acc⟩

/-! ### The program -/

theorem sum_slots (insns : List Insn) :
    (insns.map Insn.slots).sum = insns.length + insns.countP Insn.isLoadImm64 := by
  induction insns with
  | nil => rfl
  | cons insn insns ih =>
    rw [List.map_cons, List.sum_cons, List.length_cons, List.countP_cons, ih]
    cases insn <;> simp [Insn.slots, Insn.isLoadImm64] <;> omega

theorem decodeProgram_eq_loop {raw : List RawInsn} (hne : raw ≠ [])
    (hlen : raw.length ≤ maxInsns) :
    decodeProgram raw = decodeLoop raw raw.length 0 [] := by
  rw [decodeProgram, if_neg hne, if_neg (by omega)]

theorem raw_ne_nil {raw : List RawInsn} {insns : List Insn} (h : decodeProgram raw = .ok insns) :
    raw ≠ [] := by
  rintro rfl
  cases h

theorem raw_length_le {raw : List RawInsn} {insns : List Insn}
    (h : decodeProgram raw = .ok insns) : raw.length ≤ maxInsns := by
  by_contra hlen
  rw [decodeProgram, if_neg (raw_ne_nil h), if_pos (by omega)] at h
  cases h

/-- The instructions of an accepted program fill its slots. -/
theorem sum_slots_of_decodeProgram {raw : List RawInsn} {insns : List Insn}
    (h : decodeProgram raw = .ok insns) : (insns.map Insn.slots).sum = raw.length := by
  have hle := raw_length_le h
  rw [decodeProgram_eq_loop (raw_ne_nil h) hle] at h
  have hm := decodeLoop_append_left (b := []) (by simpa using hle) raw.length 0 [] (by omega)
    (by omega) rfl
  exact (hm.of_ok h).1

/-- **Two programs in a row.**  An accepted program has a slot for each instruction and one more
for each `LDDW`; what follows it is decoded as a program of its own, with the positions in errors
moved.  A program rejected for another reason than a cut-off `LDDW` stays rejected. -/
theorem decodeProgram_append (ha : a ≠ []) (hb : b ≠ []) (hlen : a.length + b.length ≤ maxInsns) :
    (∀ xs, decodeProgram a = .ok xs →
      a.length = xs.length + xs.countP Insn.isLoadImm64 ∧
        (∀ ys, decodeProgram b = .ok ys → decodeProgram (a ++ b) = .ok (xs ++ ys)) ∧
        ∀ e, decodeProgram b = fail e → decodeProgram (a ++ b) = fail (e.shift a.length)) ∧
      ∀ e, decodeProgram a = fail e → (∀ pc, e ≠ .truncatedWideInsn pc) →
        decodeProgram (a ++ b) = fail e := by
  have hab : a ++ b ≠ [] := by simp [ha]
  rw [decodeProgram_eq_loop ha (by omega), decodeProgram_eq_loop hb (by omega),
    decodeProgram_eq_loop hab (by rwa [List.length_append]), List.length_append]
  have hm := decodeLoop_append_left hlen a.length 0 [] (by omega) (by omega) rfl
  constructor
  · intro xs hxs
    obtain ⟨hslots, hloop⟩ := hm.of_ok hxs
    have hright := decodeLoop_append_right hlen b.length 0 []
    have hacc := @decodeLoop_acc (a ++ b) b.length a.length xs []
    rw [List.append_nil, ← hloop] at hacc
    rw [Nat.add_zero] at hright
    rw [hacc, hright]
    refine ⟨by rw [← hslots, sum_slots], fun ys hys => ?_, fun e he => ?_⟩
    · rw [hys]
      rfl
    · rw [he]
      rfl
  · intro e he hcut
    rw [he] at hm
    refine hm ?_
    rintro ⟨pc, hpc⟩
    cases hpc
    exact hcut pc rfl

/-- `decodeProgram_append` at `r0 = 7 ll` followed by `exit`. -/
theorem decodeProgram_append_exit :
    decodeProgram [⟨0x18, 0, 0, 7⟩, ⟨0, 0, 0, 0⟩] = .ok [.loadImm64 BpfReg.r0 7] ∧
      decodeProgram ([⟨0x18, 0, 0, 7⟩, ⟨0, 0, 0, 0⟩] ++ [⟨0x95, 0, 0, 0⟩]) =
        .ok ([.loadImm64 BpfReg.r0 7] ++ [.exit]) := by
  have ha : decodeProgram [⟨0x18, 0, 0, 7⟩, ⟨0, 0, 0, 0⟩] = .ok [.loadImm64 BpfReg.r0 7] := by
    decide +kernel
  have hb : decodeProgram [⟨0x95, 0, 0, 0⟩] = .ok [.exit] := by decide +kernel
  have h := decodeProgram_append (a := [⟨0x18, 0, 0, 7⟩, ⟨0, 0, 0, 0⟩])
    (b := [⟨0x95, 0, 0, 0⟩]) (by decide) (by decide) (by decide)
  exact ⟨ha, (h.1 _ ha).2.1 _ hb⟩

end NVMirror
