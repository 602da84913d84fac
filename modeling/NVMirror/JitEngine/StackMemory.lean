import NVMirror.JitEngine.Totality

/-!
# The stack of the interpreter is never accessed

`new` starts with 0 in `R10`, which no accepted program changes, so the addresses below it are not
in the stack buffer: a store there is dropped, and a load gives 0.

* `access_below_zero`: such an access completes, and has no effect.
* `readsBack_iff`: a stored value is read back exactly if its low bytes are 0.
* `storeOne_lost`: a run that stores 1 and loads 0.
-/

namespace NVMirror

open Rust Bytes

/-- The access `[R10 + off]` lies in the frame of 512 bytes below `R10`. -/
structure FrameAccess (off : I16) (width : MemWidth) : Prop where
  low : -512 ≤ off.toInt
  high : off.toInt + width.byteLen ≤ 0

/-- Two accesses have no byte in common. -/
def DisjointAccess (off off' : I16) (width width' : MemWidth) : Prop :=
  off.toInt + width.byteLen ≤ off'.toInt ∨ off'.toInt + width'.byteLen ≤ off.toInt

/-- The low bytes of a value. -/
def truncateTo (width : MemWidth) (v : U64) : U64 :=
  (v.setWidth (8 * width.byteLen)).setWidth 64

/-- A store in the frame, at an offset of a width. -/
def FrameStore (insn : Insn) (off : I16) (width : MemWidth) : Prop :=
  (∃ src, insn = .storeReg width BpfReg.r10 src off) ∨
    ∃ imm, insn = .storeImm width BpfReg.r10 off imm

variable [Profile] {base : U64} {insns : List Insn}

/-- The stack buffer is real memory at one access: a value stored from `src` is loaded into `dst`
again, also if another part of the frame is stored to in between. -/
def ReadsBack (base : U64) (s : InterpreterState) (width : MemWidth) (off : I16)
    (src dst : BpfReg) : Prop :=
  ∃ s₁, stepInsn base s (.storeReg width BpfReg.r10 src off) = .ok (s₁, true) ∧
    (∃ s₂, stepInsn base s₁ (.load width dst BpfReg.r10 off) = .ok (s₂, true) ∧
      s₂.regs dst = truncateTo width (s.regs src)) ∧
    ∀ insn off' width', FrameStore insn off' width' → FrameAccess off' width' →
      DisjointAccess off off' width width' → ∃ s₂ s₃, stepInsn base s₁ insn = .ok (s₂, true) ∧
        stepInsn base s₂ (.load width dst BpfReg.r10 off) = .ok (s₃, true) ∧
        s₃.regs dst = truncateTo width (s.regs src)

omit [Profile] in
/-- The index of an address below 0. -/
theorem toNat_rel (htop : base.toNat + stackSize < 2 ^ 63) {off : I16} (hneg : off.toInt < 0) :
    ((0 : U64) + off.signExtend 64 - base).toNat = 2 ^ 64 + off.toInt - base.toNat := by
  have hoff : (off.signExtend 64).toInt = off.toInt := BitVec.toInt_signExtend_of_le (by decide)
  have hcond := BitVec.toInt_eq_toNat_cond (off.signExtend 64)
  have hrange := off_range off
  have hs := (off.signExtend 64).isLt
  unfold stackSize at htop
  rw [hoff] at hcond
  have hzero : (0 : U64) + off.signExtend 64 = off.signExtend 64 := BitVec.zero_add _
  rw [hzero, BitVec.toNat_sub]
  split_ifs at hcond with hsmall
  · omega
  · omega

/-- The addresses below 0 are not in the buffer: a load gives 0, a store is dropped. -/
theorem access_below_zero (hbase : 4096 ≤ base.toNat) (htop : base.toNat + stackSize < 2 ^ 63)
    {off : I16} {width : MemWidth} (h : FrameAccess off width) :
    ∃ rel, stackRel base 0 off = .ok rel ∧ (∀ stack, readStack stack rel width = .ok 0) ∧
      ∀ stack val, writeStack stack rel width val = .ok stack := by
  have hone := width.byteLen_pos
  have hhigh := h.high
  have hlow := h.low
  have hrel := @toNat_rel base htop off (by omega)
  unfold stackSize at htop
  have hfits : AddressFits base 0 off := by
    refine ⟨?_, ?_⟩
    · have hzero : (0 : U64).toInt = 0 := rfl
      omega
    · unfold stackSize
      omega
  have hend : ¬ ((0 : U64) + off.signExtend 64 - base).toNat + width.byteLen ≤ stackSize := by
    unfold stackSize
    omega
  refine ⟨_, stackRel_eq_ok.2 ⟨fun _ => hfits, rfl⟩, fun stack => ?_, fun stack val => ?_⟩
  · rw [readStack_eq_ok, stackValue, if_neg hend]
    exact ⟨by omega, rfl⟩
  · rw [writeStack_eq_ok, stackWritten, if_neg hend]
    exact ⟨by omega, rfl⟩

variable {s : InterpreterState} {off : I16} {width : MemWidth}

/-- A load from the frame gives 0. -/
theorem stepInsn_load (hbase : 4096 ≤ base.toNat) (htop : base.toNat + stackSize < 2 ^ 63)
    (h : FrameAccess off width) (hr10 : s.regs BpfReg.r10 = 0) (hpc : s.pc + 1 < 2 ^ 64)
    (dst : BpfReg) : stepInsn base s (.load width dst BpfReg.r10 off) =
      .ok ({ s.setReg dst 0 with pc := s.pc + 1 }, true) := by
  obtain ⟨rel, hrel, hread, -⟩ := access_below_zero hbase htop h
  dsimp only [stepInsn]
  rw [hr10, hrel, ok_bind, hread, ok_bind]
  exact advance_of_lt hpc

/-- A store to the frame changes nothing but `pc`. -/
theorem stepInsn_frameStore (hbase : 4096 ≤ base.toNat) (htop : base.toNat + stackSize < 2 ^ 63)
    (h : FrameAccess off width) (hr10 : s.regs BpfReg.r10 = 0) (hpc : s.pc + 1 < 2 ^ 64)
    {insn : Insn} (hinsn : FrameStore insn off width) :
    stepInsn base s insn = .ok ({ s with pc := s.pc + 1 }, true) := by
  obtain ⟨rel, hrel, -, hwrite⟩ := access_below_zero hbase htop h
  rcases hinsn with ⟨src, rfl⟩ | ⟨imm, rfl⟩
  all_goals
    dsimp only [stepInsn]
    rw [hr10, hrel, ok_bind, hwrite, ok_bind]
    exact advance_of_lt hpc

/-- Where `R10` is 0, a stored value is read back exactly if its low bytes are 0. -/
theorem readsBack_iff_of_zero (hbase : 4096 ≤ base.toNat)
    (htop : base.toNat + stackSize < 2 ^ 63) (h : FrameAccess off width)
    (hr10 : s.regs BpfReg.r10 = 0) (hpc : s.pc + 3 < 2 ^ 64) (src dst : BpfReg) :
    ReadsBack base s width off src dst ↔ truncateTo width (s.regs src) = 0 := by
  have hstore := stepInsn_frameStore hbase htop h hr10 (by omega) (Or.inl ⟨src, rfl⟩)
  have hload : ∀ pc, pc + 1 < 2 ^ 64 →
      stepInsn base { s with pc } (.load width dst BpfReg.r10 off) =
        .ok ({ s.setReg dst 0 with pc := pc + 1 }, true) := fun pc hpc =>
    @stepInsn_load _ base { s with pc } off width hbase htop h hr10 hpc dst
  have hdst : ∀ pc, { s.setReg dst 0 with pc }.regs dst = 0 := fun pc =>
    Function.update_self dst 0 s.regs
  constructor
  · rintro ⟨s₁, hs₁, ⟨s₂, hs₂, hval⟩, -⟩
    rw [hstore] at hs₁
    cases hs₁
    rw [hload _ (by omega)] at hs₂
    cases hs₂
    rw [hdst] at hval
    exact hval.symm
  · intro hzero
    refine ⟨_, hstore, ⟨_, hload _ (by omega), (hdst _).trans hzero.symm⟩, ?_⟩
    intro insn off' width' hinsn hframe _
    have hstore' := @stepInsn_frameStore _ base { s with pc := s.pc + 1 } off' width' hbase htop
      hframe hr10 (show s.pc + 1 + 1 < 2 ^ 64 by omega) insn hinsn
    exact ⟨_, _, hstore', hload _ (show s.pc + 1 + 1 + 1 < 2 ^ 64 by omega),
      (hdst _).trans hzero.symm⟩

/-! ### Runs -/

/-- `pc` stays in the program, or right behind it. -/
theorem stepN_pc_le (hv : Verified insns) {k : ℕ} {s₀ : InterpreterState} (h0 : s₀.pc = 0)
    (hrun : stepN base insns s₀ k = .ok s) : s.pc ≤ insns.length := by
  induction k generalizing s with
  | zero =>
    cases hrun
    rw [h0]
    exact Nat.zero_le _
  | succ k ih =>
    obtain ⟨t, c, ht, hstep⟩ := stepN_succ_eq_ok.1 hrun
    have hle := ih ht
    rcases step_cases hstep with ⟨-, -, rfl⟩ | ⟨insn, he, ⟨-, -, -, hk⟩ | ⟨-, -, rfl⟩⟩
    · exact hle
    · have hinsn := (executed_eq_some.1 he).2
      have hlt := (List.getElem?_eq_some_iff.1 hinsn).1
      rcases hk.pc with ⟨-, hpc⟩ | ⟨-, off, hoff, hjump⟩
      · omega
      · obtain ⟨q, hq, hq'⟩ := hv.targets _ insn off hinsn hoff
        rw [jumpPc_of_isTarget hjump hq']
        exact hq.le
    · exact hle

/-- `R10` keeps its value. -/
theorem stepN_r10 (hv : Verified insns) {k : ℕ} {regs : BpfReg → U64}
    {stack : Fin stackSize → U8} (hrun : stepN base insns (.start regs stack) k = .ok s) :
    s.regs BpfReg.r10 = regs BpfReg.r10 := by
  have hfst : (trackN base insns (.start regs stack, entryInits) k).map Prod.fst =
      stepN base insns (.start regs stack) k := trackN_fst _ _ k
  rw [hrun] at hfst
  cases hy : trackN base insns (.start regs stack, entryInits) k with
  | error f =>
    rw [hy] at hfst
    cases hfst
  | ok y =>
    rw [hy] at hfst
    cases hfst
    exact (trackN_tracked hv (Tracked.start regs stack) hy).2

/-- **The stack buffer is not used.**  In every state a run of an accepted program reaches, let
`src` hold any value `v` (`R10` holds 0).  Stored below `R10` and loaded again, it is read back
exactly if its low bytes are 0. -/
theorem readsBack_iff {raw : List RawInsn} {n : ℕ} (hdec : decodeProgram raw = .ok insns)
    (hver : verifyProgram insns = .ok n) (hbase : 4096 ≤ base.toNat)
    (htop : base.toNat + stackSize < 2 ^ 63) {k : ℕ} (hrun : stepN base insns .new k = .ok s)
    (hframe : FrameAccess off width) (src dst : BpfReg) (v : U64)
    (hv : src = BpfReg.r10 → v = s.regs BpfReg.r10) :
    ReadsBack base (s.setReg src v) width off src dst ↔ truncateTo width v = 0 := by
  have hverified := verified_of_verifyProgram hver
  have hlen : insns.length < 2 ^ 62 := by
    have := (decoded_of_decodeProgram hdec).length_le
    unfold maxInsns at this
    omega
  have hpc := stepN_pc_le hverified rfl hrun
  have hr10 : s.regs BpfReg.r10 = 0 := @stepN_r10 _ base insns s hverified k (fun _ => 0) _ hrun
  have hval : (s.setReg src v).regs src = v := by
    show Function.update s.regs src v src = v
    exact Function.update_self _ _ _
  have hset : (s.setReg src v).regs BpfReg.r10 = 0 := by
    by_cases hsrc : src = BpfReg.r10
    · subst hsrc
      rw [hval, hv rfl, hr10]
    · exact (Function.update_of_ne (Ne.symm hsrc) v s.regs).trans hr10
  have hpc' : (s.setReg src v).pc = s.pc := rfl
  rw [readsBack_iff_of_zero hbase htop hframe hset (by omega) src dst, hval]

omit [Profile]

/-- `r0 = 1; *(u64 *)(r10 - 8) = r0; r0 = *(u64 *)(r10 - 8); exit`. -/
def storeOne : List RawInsn :=
  [⟨0xb7, 0, 0, 1⟩, ⟨0x7b, 0x0a, -8, 0⟩, ⟨0x79, 0xa0, -8, 0⟩, ⟨0x95, 0, 0, 0⟩]

/-- `storeOne`, decoded. -/
def storeOneInsns : List Insn :=
  [.alu64 .mov BpfReg.r0 (.imm 1), .storeReg .dw BpfReg.r10 BpfReg.r0 (-8),
    .load .dw BpfReg.r0 BpfReg.r10 (-8), .exit]

theorem decode_storeOne : decodeProgram storeOne = .ok storeOneInsns := by
  decide +kernel

/-- `readsBack_iff` at the state of `storeOne` before the store. -/
theorem readsBack_iff_storeOne : ∃ s, @stepN debug 0x1000 storeOneInsns .new 1 = .ok s ∧
    ¬ @ReadsBack debug 0x1000 (s.setReg BpfReg.r0 1) .dw (-8) BpfReg.r0 BpfReg.r0 := by
  have hok : verifyProgram storeOneInsns = .ok 1 := rfl
  have hrun : ∃ s, @stepN debug 0x1000 storeOneInsns .new 1 = .ok s := ⟨_, rfl⟩
  obtain ⟨s, hs⟩ := hrun
  refine ⟨s, hs, fun hback => ?_⟩
  have h := (@readsBack_iff debug 0x1000 storeOneInsns s (-8) .dw storeOne 1 decode_storeOne hok
    (by decide) (by decide) 1 hs ⟨by decide, by decide⟩
    BpfReg.r0 BpfReg.r0 1 (fun h => absurd h (by decide))).1 hback
  revert h
  decide

/-- **A stored value is lost.**  `storeOne` is accepted; it stores 1 and loads 0. -/
theorem storeOne_lost :
    decodeProgram storeOne = .ok storeOneInsns ∧ verifyProgram storeOneInsns = .ok 1 ∧
      ∃ s₁ s₃, @stepN debug 0x1000 storeOneInsns .new 1 = .ok s₁ ∧ s₁.regs BpfReg.r0 = 1 ∧
        ¬ @ReadsBack debug 0x1000 s₁ .dw (-8) BpfReg.r0 BpfReg.r0 ∧
        @stepN debug 0x1000 storeOneInsns .new 3 = .ok s₃ ∧ s₃.regs BpfReg.r0 = 0 := by
  refine ⟨decode_storeOne, rfl, _, _, rfl, rfl, fun hback => ?_, rfl, rfl⟩
  have h := (@readsBack_iff_of_zero debug 0x1000 _ (-8) .dw (by decide) (by decide)
    ⟨by decide, by decide⟩ rfl (by decide) BpfReg.r0 BpfReg.r0).1 hback
  revert h
  decide

end NVMirror
