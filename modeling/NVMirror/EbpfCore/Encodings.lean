import NVMirror.EbpfCore.Append

/-!
# The encodings of the opcode tables

The tables of the instruction set give loads and stores the mode `MEM`, atomics the mode `ATOMIC`
with a width of 4 or 8 bytes, 32-bit jumps one of the eleven conditions, and the second slot of
`LDDW` the opcode `0`.  The decoder does not check all of this.

* `decodeInsn_encodedBy`: which accepted slots are encodings of the tables.
* `encodedBy_iff_slotsConform`: all instructions of an accepted program have table encodings
  exactly if its slots pass the checks the decoder leaves out (`SlotsConform`).
* `load_mode_ignored`: a sign-extending load is decoded as a plain one.
-/

namespace NVMirror

open Rust

/-- The memory access mode of the opcode. -/
def RawInsn.mode (r : RawInsn) : U8 := r.opcode &&& 0xe0

/-- The slot `r`, with `next` after it, is an encoding of the instruction in the opcode tables. -/
def Insn.EncodedBy (insn : Insn) (r : RawInsn) (next : Option RawInsn) : Prop :=
  match insn with
  | .load .. => r.insnClass = bpfLdx ∧ r.mode = bpfMem
  | .storeImm .. => r.insnClass = bpfSt ∧ r.mode = bpfMem
  | .storeReg .. => r.insnClass = bpfStx ∧ r.mode = bpfMem
  | .atomic width .. =>
    r.insnClass = bpfStx ∧ r.mode = bpfAtomic ∧ (width = .w ∨ width = .dw)
  | .jmpCond32 op .. => op ≠ .ja
  | .loadImm64 .. => ∃ s, next = some s ∧ s.opcode = 0
  | _ => True

/-- What the decoder leaves unchecked in the opcode of a slot. -/
structure RawInsn.Conforms (r : RawInsn) : Prop where
  load : r.insnClass = bpfLdx → r.mode = bpfMem
  storeImm : r.insnClass = bpfSt → r.mode = bpfMem
  store : r.insnClass = bpfStx → r.mode = bpfMem ∨
    r.mode = bpfAtomic ∧ (r.opcode &&& 0x18 = bpfW ∨ r.opcode &&& 0x18 = bpfDw)
  jump : r.insnClass = bpfJmp32 → r.opcode &&& 0xf0 ≠ bpfJa

instance (r : RawInsn) : Decidable r.Conforms :=
  decidable_of_iff ((r.insnClass = bpfLdx → r.mode = bpfMem) ∧
      (r.insnClass = bpfSt → r.mode = bpfMem) ∧
      (r.insnClass = bpfStx → r.mode = bpfMem ∨
        r.mode = bpfAtomic ∧ (r.opcode &&& 0x18 = bpfW ∨ r.opcode &&& 0x18 = bpfDw)) ∧
      (r.insnClass = bpfJmp32 → r.opcode &&& 0xf0 ≠ bpfJa))
    ⟨fun h => ⟨h.1, h.2.1, h.2.2.1, h.2.2.2⟩, fun h => ⟨h.load, h.storeImm, h.store, h.jump⟩⟩

/-- What the decoder leaves unchecked in a program: the opcodes, and the second slots of `LDDW`. -/
def SlotsConform : List RawInsn → Prop
  | [] => True
  | [r] => r.Conforms
  | r :: next :: rest =>
    if r.insnClass = bpfLd then next.opcode = 0 ∧ SlotsConform rest
    else r.Conforms ∧ SlotsConform (next :: rest)

instance decidableSlotsConform : (raw : List RawInsn) → Decidable (SlotsConform raw)
  | [] => inferInstanceAs (Decidable True)
  | [r] => inferInstanceAs (Decidable r.Conforms)
  | r :: next :: rest =>
    have := decidableSlotsConform rest
    have := decidableSlotsConform (next :: rest)
    inferInstanceAs (Decidable (if r.insnClass = bpfLd then next.opcode = 0 ∧ SlotsConform rest
      else r.Conforms ∧ SlotsConform (next :: rest)))

theorem slotsConform_cons_of_ne {r : RawInsn} {rest : List RawInsn} (h : r.insnClass ≠ bpfLd) :
    SlotsConform (r :: rest) ↔ r.Conforms ∧ SlotsConform rest := by
  cases rest with
  | nil => exact (and_iff_left trivial).symm
  | cons next rest => rw [SlotsConform, if_neg h]

theorem slotsConform_cons_cons {r next : RawInsn} {rest : List RawInsn}
    (h : r.insnClass = bpfLd) :
    SlotsConform (r :: next :: rest) ↔ next.opcode = 0 ∧ SlotsConform rest := by
  rw [SlotsConform, if_pos h]

/-! ### One instruction -/

section OneInsn

variable {r : RawInsn} {pc : ℕ}

theorem class_ne {c c' : U8} (h : r.insnClass = c) (hne : c ≠ c') : r.insnClass ≠ c' := by
  rw [h]
  exact hne

/-- A class whose slots the decoder checks completely. -/
theorem conforms_of_class (hldx : r.insnClass ≠ bpfLdx) (hst : r.insnClass ≠ bpfSt)
    (hstx : r.insnClass ≠ bpfStx) (hjmp : r.insnClass ≠ bpfJmp32) : r.Conforms where
  load h := absurd h hldx
  storeImm h := absurd h hst
  store h := absurd h hstx
  jump h := absurd h hjmp

theorem conforms_iff_of_ldx (h : r.insnClass = bpfLdx) : r.Conforms ↔ r.mode = bpfMem :=
  ⟨fun hc => hc.load h, fun hm =>
    { load := fun _ => hm
      storeImm := fun _ => hm
      store := fun h' => absurd h' (class_ne h (by decide))
      jump := fun h' => absurd h' (class_ne h (by decide)) }⟩

theorem conforms_iff_of_st (h : r.insnClass = bpfSt) : r.Conforms ↔ r.mode = bpfMem :=
  ⟨fun hc => hc.storeImm h, fun hm =>
    { load := fun _ => hm
      storeImm := fun _ => hm
      store := fun h' => absurd h' (class_ne h (by decide))
      jump := fun h' => absurd h' (class_ne h (by decide)) }⟩

theorem conforms_iff_of_stx (h : r.insnClass = bpfStx) :
    r.Conforms ↔ r.mode = bpfMem ∨
      r.mode = bpfAtomic ∧ (r.opcode &&& 0x18 = bpfW ∨ r.opcode &&& 0x18 = bpfDw) :=
  ⟨fun hc => hc.store h, fun hm =>
    { load := fun h' => absurd h' (class_ne h (by decide))
      storeImm := fun h' => absurd h' (class_ne h (by decide))
      store := fun _ => hm
      jump := fun h' => absurd h' (class_ne h (by decide)) }⟩

theorem conforms_iff_of_jmp32 (h : r.insnClass = bpfJmp32) :
    r.Conforms ↔ r.opcode &&& 0xf0 ≠ bpfJa :=
  ⟨fun hc => hc.jump h, fun hm =>
    { load := fun h' => absurd h' (class_ne h (by decide))
      storeImm := fun h' => absurd h' (class_ne h (by decide))
      store := fun h' => absurd h' (class_ne h (by decide))
      jump := fun _ => hm }⟩

theorem decodeAlu_encodedBy (next : Option RawInsn) {is64 : Bool} :
    Meets (decodeAlu r pc is64) (fun insn => insn.EncodedBy r next) (fun f => f ≠ .panic) := by
  unfold decodeAlu
  refine decodeReg_meets.bind fun dst _ => ?_
  split_ifs
  iterate 3 exact Meets.ok trivial
  · exact Meets.fail (by simp)
  all_goals exact okOr_meets.bind fun op _ => decodeSource_meets.bind fun src _ => Meets.ok trivial

theorem decodeJmp_encodedBy (next : Option RawInsn) :
    Meets (decodeJmp r pc) (fun insn => insn.EncodedBy r next) (fun f => f ≠ .panic) := by
  unfold decodeJmp
  dsimp only
  split_ifs
  iterate 3 exact Meets.ok trivial
  exact okOr_meets.bind fun op _ => decodeReg_meets.bind fun dst _ =>
    decodeSource_meets.bind fun src _ => Meets.ok trivial

theorem fromOpcodeBits_ja {opcode : U8} (h : opcode &&& 0xf0 = bpfJa) :
    JmpOp.fromOpcodeBits opcode = some .ja := by
  unfold JmpOp.fromOpcodeBits
  exact if_pos h

theorem decodeJmp32_encodedBy (next : Option RawInsn) :
    Meets (decodeJmp32 r pc) (fun insn => insn.EncodedBy r next ↔ r.opcode &&& 0xf0 ≠ bpfJa)
      (fun f => f ≠ .panic) := by
  refine okOr_meets.bind fun op hop => decodeReg_meets.bind fun dst _ =>
    decodeSource_meets.bind fun src _ => Meets.ok ⟨fun hne hja => ?_, fun hne => ?_⟩
  · rw [fromOpcodeBits_ja hja] at hop
    exact hne (Option.some.inj hop).symm
  · exact fromOpcodeBits_ne_ja hne hop

theorem decodeLdx_encodedBy (next : Option RawInsn) (hcls : r.insnClass = bpfLdx) :
    Meets (decodeLdx r pc) (fun insn => insn.EncodedBy r next ↔ r.mode = bpfMem)
      (fun f => f ≠ .panic) :=
  okOr_meets.bind fun _ _ => decodeReg_meets.bind fun _ _ =>
    decodeReg_meets.bind fun _ _ => Meets.ok (and_iff_right hcls)

theorem decodeSt_encodedBy (next : Option RawInsn) (hcls : r.insnClass = bpfSt) :
    Meets (decodeSt r pc) (fun insn => insn.EncodedBy r next ↔ r.mode = bpfMem)
      (fun f => f ≠ .panic) :=
  okOr_meets.bind fun _ _ => decodeReg_meets.bind fun _ _ => Meets.ok (and_iff_right hcls)

theorem fromSizeCode_eq {code : U8} {width : MemWidth}
    (h : MemWidth.fromSizeCode code = some width) :
    (width = .w ∨ width = .dw) ↔ (code &&& 0x18 = bpfW ∨ code &&& 0x18 = bpfDw) := by
  unfold MemWidth.fromSizeCode at h
  dsimp only at h
  split_ifs at h with hb hh hw hdw
  all_goals cases h
  · rw [hb]
    decide
  · rw [hh]
    decide
  · exact iff_of_true (Or.inl rfl) (Or.inl hw)
  · exact iff_of_true (Or.inr rfl) (Or.inr hdw)

theorem decodeStx_encodedBy (next : Option RawInsn) (hcls : r.insnClass = bpfStx) :
    Meets (decodeStx r pc)
      (fun insn => insn.EncodedBy r next ↔ r.mode = bpfMem ∨
        r.mode = bpfAtomic ∧ (r.opcode &&& 0x18 = bpfW ∨ r.opcode &&& 0x18 = bpfDw))
      (fun f => f ≠ .panic) := by
  unfold decodeStx
  refine okOr_meets.bind fun width hwidth => decodeReg_meets.bind fun dst _ =>
    decodeReg_meets.bind fun src _ => ?_
  rw [← fromSizeCode_eq hwidth]
  by_cases hmode : r.mode = bpfAtomic
  · rw [if_pos (show r.opcode &&& 0xe0 = bpfAtomic from hmode)]
    have hmem : ¬ r.mode = bpfMem := by
      rw [hmode]
      decide
    refine decodeAtomicOp_meets.bind fun op _ => Meets.ok ?_
    rw [or_iff_right hmem]
    exact and_iff_right hcls
  · rw [if_neg (show ¬ r.opcode &&& 0xe0 = bpfAtomic from hmode)]
    refine Meets.ok ?_
    rw [or_iff_left fun h => hmode h.1]
    exact and_iff_right hcls

theorem decodeLddw_encodedBy {raw : List RawInsn} (hpc : pc < raw.length)
    (hlen : raw.length ≤ maxInsns) :
    Meets (decodeLddw raw r pc)
      (fun insn => ∃ s, raw[pc + 1]? = some s ∧
        (insn.EncodedBy r raw[pc + 1]? ↔ s.opcode = 0)) (fun f => f ≠ .panic) := by
  unfold maxInsns at hlen
  unfold decodeLddw
  dsimp only
  split_ifs
  · refine (meets_usizeAdd fun h => by omega).bind fun pc1 hpc1 => ?_
    obtain ⟨-, rfl⟩ := hpc1
    split_ifs with hend
    · exact Meets.fail (by simp)
    · refine (meets_index (by omega)).bind fun s hs => decodeReg_meets.bind fun dst _ =>
        Meets.ok ⟨s, hs, ?_⟩
      rw [hs]
      constructor
      · rintro ⟨s', hs', h0⟩
        cases hs'
        exact h0
      · exact fun h0 => ⟨s, rfl, h0⟩
  · exact Meets.fail (by simp)

/-- **One instruction.**  It has a table encoding exactly if its slot conforms, and an `LDDW` if
its second slot does. -/
theorem decodeInsn_encodedBy {raw : List RawInsn} (hr : raw[pc]? = some r)
    (hlen : raw.length ≤ maxInsns) :
    Meets (decodeInsn raw pc)
      (fun x => (r.insnClass ≠ bpfLd ∧ x.2 = 1 ∧ (x.1.EncodedBy r raw[pc + 1]? ↔ r.Conforms)) ∨
        (r.insnClass = bpfLd ∧ x.2 = 2 ∧ ∃ s, raw[pc + 1]? = some s ∧
          (x.1.EncodedBy r raw[pc + 1]? ↔ s.opcode = 0)))
      (fun f => f ≠ .panic) := by
  have hpc : pc < raw.length := (List.getElem?_eq_some_iff.1 hr).1
  have hone : ∀ {m : Rust DecodeError Insn}, r.insnClass ≠ bpfLd →
      Meets m (fun insn => insn.EncodedBy r raw[pc + 1]? ↔ r.Conforms) (fun f => f ≠ .panic) →
      Meets (do let insn ← m; pure (insn, 1))
        (fun x : Insn × ℕ =>
          (r.insnClass ≠ bpfLd ∧ x.2 = 1 ∧ (x.1.EncodedBy r raw[pc + 1]? ↔ r.Conforms)) ∨
          (r.insnClass = bpfLd ∧ x.2 = 2 ∧ ∃ s, raw[pc + 1]? = some s ∧
            (x.1.EncodedBy r raw[pc + 1]? ↔ s.opcode = 0)))
        (fun f => f ≠ .panic) :=
    fun hcls h => h.bind fun insn hi => Meets.ok (Or.inl ⟨hcls, rfl, hi⟩)
  unfold decodeInsn
  rw [index_of_getElem? hr, ok_bind]
  dsimp only
  split_ifs with h7 h4 h5 h6 h1 h3 h2 h0
  · refine hone (class_ne h7 (by decide))
      ((decodeAlu_encodedBy raw[pc + 1]?).imp fun insn h => ?_)
    exact iff_of_true h (by apply conforms_of_class <;> exact class_ne h7 (by decide))
  · refine hone (class_ne h4 (by decide))
      ((decodeAlu_encodedBy raw[pc + 1]?).imp fun insn h => ?_)
    exact iff_of_true h (by apply conforms_of_class <;> exact class_ne h4 (by decide))
  · refine hone (class_ne h5 (by decide))
      ((decodeJmp_encodedBy raw[pc + 1]?).imp fun insn h => ?_)
    exact iff_of_true h (by apply conforms_of_class <;> exact class_ne h5 (by decide))
  · refine hone (class_ne h6 (by decide))
      ((decodeJmp32_encodedBy raw[pc + 1]?).imp fun insn h => ?_)
    exact h.trans (conforms_iff_of_jmp32 h6).symm
  · refine hone (class_ne h1 (by decide))
      ((decodeLdx_encodedBy raw[pc + 1]? h1).imp fun insn h => ?_)
    exact h.trans (conforms_iff_of_ldx h1).symm
  · refine hone (class_ne h3 (by decide))
      ((decodeStx_encodedBy raw[pc + 1]? h3).imp fun insn h => ?_)
    exact h.trans (conforms_iff_of_stx h3).symm
  · refine hone (class_ne h2 (by decide))
      ((decodeSt_encodedBy raw[pc + 1]? h2).imp fun insn h => ?_)
    exact h.trans (conforms_iff_of_st h2).symm
  · exact (decodeLddw_encodedBy hpc hlen).bind fun insn hi => Meets.ok (Or.inr ⟨h0, rfl, hi⟩)
  · exact Meets.fail (by simp)

end OneInsn

/-! ### The program -/

variable {raw : List RawInsn} {insns : List Insn}

/-- After the last instruction all slots have been read. -/
theorem slotAt_length (h : decodeProgram raw = .ok insns) :
    slotAt raw insns.length = raw.length := by
  have hd := decoded_of_decodeProgram h
  rw [← sum_slots_of_decodeProgram h]
  have htake : ∀ i ≤ insns.length, slotAt raw i = ((insns.take i).map Insn.slots).sum := by
    intro i hi
    induction i with
    | zero => rfl
    | succ i ih =>
      have hget := List.getElem?_eq_getElem (show i < insns.length by omega)
      rw [hd.slotAt_succ hget, ih (by omega), List.take_succ_eq_append_getElem (by omega),
        List.map_append, List.sum_append]
      rfl
  rw [htake _ le_rfl, List.take_length]

/-- Instruction `i` has a table encoding. -/
def EncodedAt (raw : List RawInsn) (i : ℕ) (insn : Insn) : Prop :=
  ∃ r, raw[slotAt raw i]? = some r ∧ insn.EncodedBy r raw[slotAt raw i + 1]?

theorem encodedAt_iff_of_slot {i : ℕ} {insn : Insn} {r : RawInsn}
    (hr : raw[slotAt raw i]? = some r) :
    EncodedAt raw i insn ↔ insn.EncodedBy r raw[slotAt raw i + 1]? := by
  constructor
  · rintro ⟨r', hr', henc⟩
    rw [hr] at hr'
    cases hr'
    exact henc
  · exact fun henc => ⟨r, hr, henc⟩

/-- The instructions from `i` on are instruction `i` and those from `i + 1` on. -/
theorem encodedAt_from_iff {i : ℕ} {insn : Insn} (hget : insns[i]? = some insn) :
    (∀ j insn, i ≤ j → insns[j]? = some insn → EncodedAt raw j insn) ↔
      EncodedAt raw i insn ∧
        ∀ j insn, i + 1 ≤ j → insns[j]? = some insn → EncodedAt raw j insn := by
  constructor
  · exact fun hall => ⟨hall i _ le_rfl hget, fun j insn hj => hall j insn (by omega)⟩
  · rintro ⟨h0, hall⟩ j insn' hj hjget
    by_cases hij : j = i
    · subst hij
      rw [hget] at hjget
      cases hjget
      exact h0
    · exact hall j insn' (by omega) hjget

/-- The instructions from `i` on, against the slots from theirs on. -/
theorem encodedAt_iff_drop (h : decodeProgram raw = .ok insns) (i d : ℕ)
    (hd : i + d = insns.length) :
    (∀ j insn, i ≤ j → insns[j]? = some insn → EncodedAt raw j insn) ↔
      SlotsConform (raw.drop (slotAt raw i)) := by
  have hdec := decoded_of_decodeProgram h
  have hlen := raw_length_le h
  induction d generalizing i with
  | zero =>
    rw [Nat.add_zero] at hd
    rw [hd, slotAt_length h, List.drop_length]
    refine iff_of_true (fun j insn hj hget => ?_) trivial
    have := (List.getElem?_eq_some_iff.1 hget).1
    omega
  | succ d ih =>
    have hget := List.getElem?_eq_getElem (show i < insns.length by omega)
    obtain ⟨hs, hread⟩ := hdec.reads i _ hget
    have hr : raw[slotAt raw i]? = some raw[slotAt raw i] := List.getElem?_eq_getElem hs
    have hone := (decodeInsn_encodedBy hr hlen).of_ok hread
    have hsucc := hdec.slotAt_succ hget
    have hrest := ih (i + 1) (by omega)
    refine (encodedAt_from_iff hget).trans ?_
    refine (and_congr (encodedAt_iff_of_slot hr) hrest).trans ?_
    rw [hsucc, List.drop_eq_getElem_cons hs]
    rcases hone with ⟨hcls, hsize, hiff⟩ | ⟨hcls, hsize, next, hnext, hiff⟩
    · dsimp only at hsize hiff
      rw [hsize, hiff, slotsConform_cons_of_ne hcls]
    · dsimp only at hsize hiff
      have hlt := (List.getElem?_eq_some_iff.1 hnext)
      rw [hsize, hiff, List.drop_eq_getElem_cons hlt.1, slotsConform_cons_cons hcls, hlt.2]

/-- **Table encodings.**  The instructions of an accepted program all have encodings of the opcode
tables exactly if its slots conform. -/
theorem encodedBy_iff_slotsConform (h : decodeProgram raw = .ok insns) :
    (∀ i insn, insns[i]? = some insn → EncodedAt raw i insn) ↔ SlotsConform raw := by
  have hdrop := encodedAt_iff_drop h 0 insns.length (by omega)
  rw [slotAt, List.drop_zero] at hdrop
  rw [← hdrop]
  exact ⟨fun hall j insn _ => hall j insn, fun hall j insn => hall j insn (Nat.zero_le j)⟩

/-- `encodedBy_iff_slotsConform` at a program with an `LDDW`. -/
theorem encodedBy_jumpOverLddw : SlotsConform jumpOverLddw ∧
    ∀ i insn, jumpOverLddwInsns[i]? = some insn → EncodedAt jumpOverLddw i insn := by
  have hconform : SlotsConform jumpOverLddw := by decide +kernel
  exact ⟨hconform, (encodedBy_iff_slotsConform decode_jumpOverLddw).2 hconform⟩

/-- `r0 = *(s32 *)(r1 + 0); exit`: the mode of the load is `0x80`, which the tables do not
have. -/
def loadSignExtended : List RawInsn := [⟨0x81, 0x10, 0, 0⟩, ⟨0x95, 0, 0, 0⟩]

/-- **The mode of a load is ignored.**  The sign-extending load is decoded as a plain one. -/
theorem load_mode_ignored :
    decodeProgram loadSignExtended = .ok [.load .w BpfReg.r0 BpfReg.r1 0, .exit] ∧
      ¬ EncodedAt loadSignExtended 0 (.load .w BpfReg.r0 BpfReg.r1 0) := by
  refine ⟨by decide +kernel, ?_⟩
  rintro ⟨r, hr, -, hmode⟩
  cases hr
  revert hmode
  decide

end NVMirror
