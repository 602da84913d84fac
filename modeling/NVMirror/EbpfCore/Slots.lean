import NVMirror.EbpfCore.Decode
import NVMirror.EbpfCore.Blocks

/-!
# Instructions and the slots they are read from

An instruction takes one slot, `LDDW` takes two.  `slotAt raw i` is the slot the decoder reads
instruction `i` from.

* `decodeProgram_meets`: the decoder never panics; instruction `i` of its result is what it reads
  at `slotAt raw i`.
* `branch_displacement`: a jump whose displacement, counted in slots, leads to instruction `j` is
  resolved to index `j` exactly if no `LDDW` lies between the jump and `j`.
-/

namespace NVMirror

open Rust

/-- Number of slots of an instruction. -/
def Insn.slots : Insn → ℕ
  | .loadImm64 .. => 2
  | _ => 1

/-- What the decoder never produces: tail calls, and `Ja` as a condition of a 64-bit jump. -/
structure Insn.FromWire (insn : Insn) : Prop where
  ne_tailCall : insn ≠ .tailCall
  jmpCond_ne_ja : ∀ op dst src off, insn = .jmpCond op dst src off → op ≠ .ja

/-- The slot instruction `i` is read from: the value of `pc` in iteration `i` of the loop. -/
def slotAt (raw : List RawInsn) : ℕ → ℕ
  | 0 => 0
  | i + 1 =>
    match decodeInsn raw (slotAt raw i) with
    | .ok (_, size) => slotAt raw i + size
    | .error _ => slotAt raw i

/-! ### One instruction -/

section OneInsn

variable {r : RawInsn} {pc : ℕ}

/-- The instruction takes one slot. -/
def OneSlot (insn : Insn) : Prop := insn.slots = 1 ∧ insn.FromWire

theorem decodeReg_meets {raw : U8} :
    Meets (decodeReg raw pc) (fun _ => True) (fun f => f ≠ .panic) :=
  Meets.okOr (fun _ _ => trivial) fun _ h => by cases h

theorem decodeSource_meets :
    Meets (decodeSource r pc) (fun _ => True) (fun f => f ≠ .panic) := by
  unfold decodeSource
  split_ifs
  · exact decodeReg_meets.bind fun _ _ => Meets.ok trivial
  · exact Meets.ok trivial

theorem okOr_meets {α : Type} {o : Option α} {e : DecodeError} :
    Meets (okOr o e) (fun a => o = some a) (fun f => f ≠ .panic) :=
  Meets.okOr (fun _ h => h) fun _ h => by cases h

theorem decodeAlu_meets {is64 : Bool} :
    Meets (decodeAlu r pc is64) OneSlot (fun f => f ≠ .panic) := by
  unfold decodeAlu
  refine decodeReg_meets.bind fun dst _ => ?_
  split_ifs
  · exact Meets.ok ⟨rfl, by simp, by simp⟩
  · exact Meets.ok ⟨rfl, by simp, by simp⟩
  · exact Meets.ok ⟨rfl, by simp, by simp⟩
  · exact Meets.fail (by simp)
  all_goals
    refine okOr_meets.bind fun op _ => decodeSource_meets.bind fun src _ => ?_
    exact Meets.ok ⟨rfl, by simp, by simp⟩

theorem ite_some_ne {α : Type} {c : Prop} [Decidable c] {a b : α} {x : Option α} (hab : a ≠ b)
    (hx : x ≠ some b) : (if c then some a else x) ≠ some b := by
  split_ifs
  · exact fun h => hab (Option.some.inj h)
  · exact hx

/-- The condition of a conditional jump is not `Ja`: those opcodes are taken before. -/
theorem fromOpcodeBits_ne_ja {opcode : U8} {op : JmpOp} (hne : opcode &&& 0xf0 ≠ bpfJa)
    (h : JmpOp.fromOpcodeBits opcode = some op) : op ≠ .ja := by
  rintro rfl
  revert h
  unfold JmpOp.fromOpcodeBits
  dsimp only
  rw [if_neg hne]
  iterate 11 refine ite_some_ne (by decide) ?_
  simp

theorem decodeJmp_meets : Meets (decodeJmp r pc) OneSlot (fun f => f ≠ .panic) := by
  unfold decodeJmp
  dsimp only
  split_ifs with hja
  · exact Meets.ok ⟨rfl, by simp, by simp⟩
  · exact Meets.ok ⟨rfl, by simp, by simp⟩
  · exact Meets.ok ⟨rfl, by simp, by simp⟩
  · refine okOr_meets.bind fun op hop => decodeReg_meets.bind fun dst _ =>
      decodeSource_meets.bind fun src _ => ?_
    refine Meets.ok ⟨rfl, by simp, fun op' _ _ _ h => ?_⟩
    cases h
    exact fromOpcodeBits_ne_ja hja hop

theorem decodeJmp32_meets : Meets (decodeJmp32 r pc) OneSlot (fun f => f ≠ .panic) := by
  refine okOr_meets.bind fun op _ => decodeReg_meets.bind fun dst _ =>
    decodeSource_meets.bind fun src _ => ?_
  exact Meets.ok ⟨rfl, by simp, by simp⟩

theorem decodeLdx_meets : Meets (decodeLdx r pc) OneSlot (fun f => f ≠ .panic) := by
  refine okOr_meets.bind fun width _ => decodeReg_meets.bind fun dst _ =>
    decodeReg_meets.bind fun src _ => ?_
  exact Meets.ok ⟨rfl, by simp, by simp⟩

theorem decodeAtomicOp_meets {imm : U32} :
    Meets (decodeAtomicOp imm pc) (fun _ => True) (fun f => f ≠ .panic) := by
  unfold decodeAtomicOp
  dsimp only
  split_ifs
  all_goals first | exact Meets.ok trivial | exact Meets.fail (by simp)

theorem decodeStx_meets : Meets (decodeStx r pc) OneSlot (fun f => f ≠ .panic) := by
  refine okOr_meets.bind fun width _ => decodeReg_meets.bind fun dst _ =>
    decodeReg_meets.bind fun src _ => ?_
  split_ifs
  · exact decodeAtomicOp_meets.bind fun op _ => Meets.ok ⟨rfl, by simp, by simp⟩
  · exact Meets.ok ⟨rfl, by simp, by simp⟩

theorem decodeSt_meets : Meets (decodeSt r pc) OneSlot (fun f => f ≠ .panic) := by
  refine okOr_meets.bind fun width _ => decodeReg_meets.bind fun dst _ => ?_
  exact Meets.ok ⟨rfl, by simp, by simp⟩

theorem decodeLddw_meets {raw : List RawInsn} (hpc : pc < raw.length)
    (hlen : raw.length ≤ maxInsns) :
    Meets (decodeLddw raw r pc)
      (fun insn => insn.slots = 2 ∧ insn.FromWire ∧ pc + 2 ≤ raw.length)
      (fun f => f ≠ .panic) := by
  unfold maxInsns at hlen
  unfold decodeLddw
  dsimp only
  split_ifs
  · refine (meets_usizeAdd fun h => by omega).bind fun pc1 hpc1 => ?_
    split_ifs with hend
    · exact Meets.fail (by simp)
    · refine (meets_index (by omega)).bind fun next _ => decodeReg_meets.bind fun dst _ => ?_
      exact Meets.ok ⟨rfl, ⟨by simp, by simp⟩, by omega⟩
  · exact Meets.fail (by simp)

/-- **One iteration of the decoder.** -/
theorem decodeInsn_meets {raw : List RawInsn} (hpc : pc < raw.length)
    (hlen : raw.length ≤ maxInsns) :
    Meets (decodeInsn raw pc)
      (fun x => x.2 = x.1.slots ∧ x.1.FromWire ∧ pc + x.2 ≤ raw.length)
      (fun f => f ≠ .panic) := by
  have hone : ∀ {m : Rust DecodeError Insn}, Meets m OneSlot (fun f => f ≠ .panic) →
      Meets (do let insn ← m; pure (insn, 1))
        (fun x : Insn × ℕ => x.2 = x.1.slots ∧ x.1.FromWire ∧ pc + x.2 ≤ raw.length)
        (fun f => f ≠ .panic) :=
    fun h => h.bind fun insn hi => Meets.ok ⟨hi.1.symm, hi.2, hpc⟩
  unfold decodeInsn
  refine (meets_index hpc).bind fun r _ => ?_
  dsimp only
  split_ifs
  · exact hone decodeAlu_meets
  · exact hone decodeAlu_meets
  · exact hone decodeJmp_meets
  · exact hone decodeJmp32_meets
  · exact hone decodeLdx_meets
  · exact hone decodeStx_meets
  · exact hone decodeSt_meets
  · exact (decodeLddw_meets hpc hlen).bind fun insn hi => Meets.ok ⟨hi.1.symm, hi.2⟩
  · exact Meets.fail (by simp)

end OneInsn

/-! ### The program -/

/-- What the decoder returns: instruction `i` is what it reads at `slotAt raw i`. -/
structure Decoded (raw : List RawInsn) (insns : List Insn) : Prop where
  ne_nil : insns ≠ []
  length_le : insns.length ≤ maxInsns
  fromWire : ∀ insn ∈ insns, insn.FromWire
  reads : ∀ (i : ℕ) insn, insns[i]? = some insn →
    slotAt raw i < raw.length ∧ decodeInsn raw (slotAt raw i) = .ok (insn, insn.slots)

/-- The decoding loop.  Enough fuel is left when each of the remaining slots has its unit. -/
theorem decodeLoop_meets {raw : List RawInsn} (hlen : raw.length ≤ maxInsns) (fuel : ℕ)
    (pc : ℕ) (acc : List Insn) (hfuel : raw.length ≤ pc + fuel) (hpc : pc = slotAt raw acc.length)
    (hacc : acc.length ≤ pc) (hle : pc ≤ raw.length) (hwire : ∀ insn ∈ acc, insn.FromWire)
    (hreads : ∀ (i : ℕ) insn, acc[i]? = some insn →
      slotAt raw i < raw.length ∧ decodeInsn raw (slotAt raw i) = .ok (insn, insn.slots)) :
    Meets (decodeLoop raw fuel pc acc)
      (fun insns => (acc.length ≤ insns.length ∧ (pc < raw.length → acc.length < insns.length)) ∧
        insns.length ≤ raw.length ∧ (∀ insn ∈ insns, insn.FromWire) ∧
        ∀ (i : ℕ) insn, insns[i]? = some insn →
          slotAt raw i < raw.length ∧ decodeInsn raw (slotAt raw i) = .ok (insn, insn.slots))
      (fun f => f ≠ .panic) := by
  have hmax : raw.length < 2 ^ 32 := by unfold maxInsns at hlen; omega
  induction fuel generalizing pc acc with
  | zero =>
    rw [decodeLoop, if_neg (by omega)]
    exact Meets.ok ⟨⟨le_rfl, by omega⟩, by omega, hwire, hreads⟩
  | succ fuel ih =>
    rw [decodeLoop]
    split_ifs with hlt
    · have hm := decodeInsn_meets hlt hlen
      cases hd : decodeInsn raw pc with
      | error f =>
        rw [hd] at hm
        exact hm
      | ok x =>
        obtain ⟨insn, size⟩ := x
        rw [hd] at hm
        obtain ⟨hsize, hw, hend⟩ := hm
        dsimp only at hsize hw hend
        have hpos : 1 ≤ size := by
          rw [hsize]
          cases insn <;> simp [Insn.slots]
        have hnext : slotAt raw (acc ++ [insn]).length = pc + size := by
          rw [List.length_append, List.length_singleton, slotAt, ← hpc, hd]
        refine (meets_usizeAdd fun h => by omega).bind fun pc' hpc' => ?_
        obtain ⟨-, rfl⟩ := hpc'
        refine (ih _ _ (by omega) hnext.symm (by simp; omega) hend ?_ ?_).imp fun insns h => ?_
        · intro i hi
          rcases List.mem_append.1 hi with hi | hi
          · exact hwire i hi
          · rw [List.mem_singleton.1 hi]
            exact hw
        · intro i insn' hi
          rw [List.getElem?_append] at hi
          split_ifs at hi with hia
          · exact hreads i insn' hi
          · have hi0 := (List.getElem?_eq_some_iff.1 hi).1
            obtain rfl : i = acc.length := by simp at hi0; omega
            rw [Nat.sub_self] at hi
            cases hi
            rw [← hpc, hd, hsize]
            exact ⟨hlt, rfl⟩
        · obtain ⟨⟨h1, -⟩, h2⟩ := h
          simp only [List.length_append, List.length_singleton] at h1
          exact ⟨⟨by omega, fun _ => by omega⟩, h2⟩
    · exact Meets.ok ⟨⟨le_rfl, by omega⟩, by omega, hwire, hreads⟩

/-- **The decoder.** -/
theorem decodeProgram_meets (raw : List RawInsn) :
    Meets (decodeProgram raw) (Decoded raw) (fun f => f ≠ .panic) := by
  unfold decodeProgram
  split_ifs with hne hlen
  · exact Meets.fail (by simp)
  · exact Meets.fail (by simp)
  · have hpos : 0 < raw.length := List.length_pos_iff.2 hne
    have hle : raw.length ≤ maxInsns := Nat.le_of_not_lt hlen
    refine (decodeLoop_meets hle raw.length 0 [] (by omega) rfl le_rfl hpos.le
      (by simp) (by simp)).imp fun insns h => ?_
    obtain ⟨⟨-, h1⟩, h2, h3, h4⟩ := h
    exact ⟨List.length_pos_iff.1 (h1 hpos), by omega, h3, h4⟩

theorem decoded_of_decodeProgram {raw : List RawInsn} {insns : List Insn}
    (h : decodeProgram raw = .ok insns) : Decoded raw insns :=
  (decodeProgram_meets raw).of_ok h

/-! ### Branch displacements -/

theorem Insn.slots_eq_one_iff (insn : Insn) :
    insn.slots = 1 ↔ ∀ dst imm, insn ≠ .loadImm64 dst imm := by
  cases insn <;> simp [Insn.slots]

theorem Insn.one_le_slots (insn : Insn) : 1 ≤ insn.slots := by
  cases insn <;> simp [Insn.slots]

/-- No `LDDW` between the instructions `i` and `j` (the later one not counted). -/
def NoLddwBetween (insns : List Insn) (i j : ℕ) : Prop :=
  ∀ k, min i j ≤ k → k < max i j → ∀ dst imm, insns[k]? ≠ some (.loadImm64 dst imm)

variable {raw : List RawInsn} {insns : List Insn}

theorem Decoded.slotAt_succ (h : Decoded raw insns) {i : ℕ} {insn : Insn}
    (hi : insns[i]? = some insn) : slotAt raw (i + 1) = slotAt raw i + insn.slots := by
  rw [slotAt, (h.reads i insn hi).2]

/-- The distance in slots is at least the distance in instructions, and equal to it exactly if
there is no `LDDW` on the way. -/
theorem Decoded.slotAt_add (h : Decoded raw insns) (i d : ℕ) (hd : i + d ≤ insns.length) :
    slotAt raw i + d ≤ slotAt raw (i + d) ∧
      (slotAt raw (i + d) = slotAt raw i + d ↔ NoLddwBetween insns i (i + d)) := by
  induction d with
  | zero => exact ⟨le_rfl, iff_of_true rfl fun k hk hk' => by omega⟩
  | succ d ih =>
    obtain ⟨hle, hiff⟩ := ih (by omega)
    have hget := List.getElem?_eq_getElem (show i + d < insns.length by omega)
    have hsucc := h.slotAt_succ hget
    have hone := insns[i + d].one_le_slots
    simp only [← Nat.add_assoc]
    refine ⟨by omega, fun heq => ?_, fun hno => ?_⟩
    · have hslots : insns[i + d].slots = 1 := by omega
      intro k hk hk' dst imm hkget
      by_cases hlast : k = i + d
      · subst hlast
        rw [hget, Option.some.injEq] at hkget
        exact (Insn.slots_eq_one_iff _).1 hslots dst imm hkget
      · exact hiff.1 (by omega) k (by omega) (by omega) dst imm hkget
    · have h1 : slotAt raw (i + d) = slotAt raw i + d :=
        hiff.2 fun k hk hk' => hno k (by omega) (by omega)
      have h2 : insns[i + d].slots = 1 := by
        refine (Insn.slots_eq_one_iff _).2 fun dst imm heq => ?_
        exact hno (i + d) (by omega) (by omega) dst imm (by rw [hget, heq])
      omega

/-- The index of the target is right exactly if no `LDDW` is jumped over. -/
theorem Decoded.isTarget_iff (h : Decoded raw insns) {i j : ℕ} {off : I16}
    (hi : i ≤ insns.length) (hj : j ≤ insns.length)
    (htarget : (slotAt raw j : ℤ) = slotAt raw i + 1 + off.toInt) :
    IsTarget i off j ↔ NoLddwBetween insns i j := by
  unfold IsTarget
  rcases Nat.le_total i j with hij | hij
  · obtain ⟨d, rfl⟩ := Nat.exists_eq_add_of_le hij
    have h1 := (h.slotAt_add i d hj).2
    rw [← h1]
    omega
  · obtain ⟨d, rfl⟩ := Nat.exists_eq_add_of_le hij
    have h1 := (h.slotAt_add j d hi).2
    have hcomm : NoLddwBetween insns (j + d) j ↔ NoLddwBetween insns j (j + d) := by
      unfold NoLddwBetween
      rw [min_comm, max_comm]
    rw [hcomm, ← h1]
    omega

theorem resolveBranch_eq_ok_iff {pc n q : ℕ} {off : I16} (hn : n < 2 ^ 62) (hpc : pc < n)
    (hq : q < n) : resolveBranch pc off n = .ok q ↔ IsTarget pc off q := by
  let F : Fault VerifyError → Prop := fun _ => ∃ t : ℤ, t = pc + 1 + off.toInt ∧ ¬ (0 ≤ t ∧ t < n)
  have hm : Meets (resolveBranch pc off n) (fun q' => q' < n ∧ IsTarget pc off q') F :=
    resolveBranch_meets hpc (fun h => absurd h (by omega)) fun t ht hout => ⟨t, ht, hout⟩
  cases hr : resolveBranch pc off n with
  | ok q' =>
    rw [hr] at hm
    refine ⟨fun h => ?_, fun ht => ?_⟩
    · cases h
      exact hm.2
    · rw [hm.2.unique ht]
  | error f =>
    rw [hr] at hm
    obtain ⟨t, ht, hout⟩ := hm
    refine ⟨fun h => (by cases h), fun h => ?_⟩
    unfold IsTarget at h
    omega

theorem jumpPc_eq_ok_iff {ε : Type} {pc q : ℕ} {off : I16} (hpc : pc < 2 ^ 62)
    (hq : q < 2 ^ 62) : jumpPc (ε := ε) pc off = .ok q ↔ IsTarget pc off q := by
  refine ⟨fun h => ?_, fun h => jumpPc_eq h hpc hq⟩
  have hoff := off_range off
  unfold jumpPc at h
  rw [toIsize_of_lt (by omega), ok_bind, isizeAdd_of_range (by omega), ok_bind,
    isizeAdd_of_range (by omega), ok_bind] at h
  have hasUsize : asUsize (pc + 1 + off.toInt) = q := Except.ok.inj h
  unfold IsTarget
  -- a negative target would wrap around to a huge one
  unfold asUsize at hasUsize
  omega

/-- **Branch displacements and `LDDW`.**  Let a decoded jump lead, counted in slots, to the first
slot of instruction `j`.  The verifier (`resolveBranch`) resolves it to index `j`, and the
interpreter and the lowering (`jumpPc`) do, exactly if no `LDDW` lies between the jump and `j`. -/
theorem branch_displacement (h : decodeProgram raw = .ok insns) {i j : ℕ} {off : I16}
    (hi : ∃ insn, insns[i]? = some insn ∧ insn.jumpOff = some off) (hj : j < insns.length)
    (htarget : (slotAt raw j : ℤ) = slotAt raw i + 1 + off.toInt) :
    (resolveBranch i off insns.length = .ok j ↔ NoLddwBetween insns i j) ∧
      (jumpPc (ε := Empty) i off = .ok j ↔ NoLddwBetween insns i j) := by
  have hd := decoded_of_decodeProgram h
  obtain ⟨insn, hinsn, -⟩ := hi
  have hlt := (List.getElem?_eq_some_iff.1 hinsn).1
  have hmax : insns.length < 2 ^ 32 := by
    have := hd.length_le
    unfold maxInsns at this
    omega
  rw [← hd.isTarget_iff hlt.le hj.le htarget]
  exact ⟨resolveBranch_eq_ok_iff (by omega) hlt hj, jumpPc_eq_ok_iff (by omega) (by omega)⟩

/-- `r0 = 0; if r0 == 0 goto +2; r1 = 7 ll; r0 = 1; exit`: the jump leads to `r0 = 1`. -/
def jumpOverLddw : List RawInsn :=
  [⟨0xb7, 0, 0, 0⟩, ⟨0x15, 0, 2, 0⟩, ⟨0x18, 1, 0, 7⟩, ⟨0, 0, 0, 0⟩, ⟨0xb7, 0, 0, 1⟩,
    ⟨0x95, 0, 0, 0⟩]

/-- `jumpOverLddw`, decoded. -/
def jumpOverLddwInsns : List Insn :=
  [.alu64 .mov BpfReg.r0 (.imm 0), .jmpCond .jeq BpfReg.r0 (.imm 0) 2, .loadImm64 BpfReg.r1 7,
    .alu64 .mov BpfReg.r0 (.imm 1), .exit]

theorem decode_jumpOverLddw : decodeProgram jumpOverLddw = .ok jumpOverLddwInsns := by
  decide +kernel

/-- `branch_displacement` at the jump over an `LDDW`: the displacement leads to `r0 = 1`, the
index does not. -/
theorem branch_displacement_jumpOverLddw :
    (slotAt jumpOverLddw 3 : ℤ) = slotAt jumpOverLddw 1 + 1 + (2 : I16).toInt ∧
      resolveBranch 1 2 5 ≠ .ok 3 ∧ jumpPc (ε := Empty) 1 2 ≠ .ok 3 := by
  have hslot : (slotAt jumpOverLddw 3 : ℤ) = slotAt jumpOverLddw 1 + 1 + (2 : I16).toInt := by
    decide +kernel
  have h := branch_displacement decode_jumpOverLddw (i := 1) (j := 3) ⟨_, rfl, rfl⟩ (by decide)
    hslot
  have hno : ¬ NoLddwBetween jumpOverLddwInsns 1 3 := fun hno =>
    hno 2 (by decide) (by decide) BpfReg.r1 7 rfl
  exact ⟨hslot, fun hres => hno (h.1.1 hres), fun hres => hno (h.2.1 hres)⟩

/-- **The displacement is not preserved.**  The jump over an `LDDW` passes the verifier; its slot
target is the first slot of instruction `3`, the index computations arrive at instruction `4`. -/
theorem displacement_lost :
    decodeProgram jumpOverLddw = .ok jumpOverLddwInsns ∧ verifyProgram jumpOverLddwInsns = .ok 3 ∧
      jumpOverLddwInsns[1]? = some (.jmpCond .jeq BpfReg.r0 (.imm 0) 2) ∧
      (slotAt jumpOverLddw 3 : ℤ) = slotAt jumpOverLddw 1 + 1 + (2 : I16).toInt ∧
      resolveBranch 1 2 jumpOverLddwInsns.length = .ok 4 ∧
      jumpPc (ε := Empty) 1 2 = .ok 4 :=
  ⟨by decide +kernel, rfl, rfl, by decide +kernel, rfl, rfl⟩

end NVMirror
