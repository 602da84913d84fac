import NVMirror.EbpfCore.Slots
import NVMirror.EbpfCore.Dataflow
import NVMirror.JitRegalloc.Lower

/-!
# The layout of lowered programs

The lowering finds the leaders and numbers the blocks on its own.  On accepted programs it finds
the leaders the verifier found (`findLeaders_meets`), the number of a block is the rank of its
leader (`numberBlocks_meets`), and the block with number `i` holds the nodes of the instructions
from leader `i` to the next one (`Lowering`).  `lowerToIr_layout` states the result.
-/

namespace NVMirror

open Rust Leaders

variable {insns : List Insn}

/-- What the later stages rely on: the certificate of the verifier, and that the program came
through the decoder. -/
structure Accepted (insns : List Insn) : Prop extends Verified insns where
  length_le : insns.length ≤ maxInsns
  fromWire : ∀ insn ∈ insns, insn.FromWire

theorem accepted_of_ok {raw : List RawInsn} {n : ℕ} (hdec : decodeProgram raw = .ok insns)
    (hver : verifyProgram insns = .ok n) : Accepted insns :=
  have hd := decoded_of_decodeProgram hdec
  ⟨verified_of_verifyProgram hver, hd.length_le, hd.fromWire⟩

theorem Accepted.length_lt (h : Accepted insns) : insns.length < 2 ^ 32 := by
  have := h.length_le
  unfold maxInsns at this
  omega

theorem Accepted.ne_tailCall (h : Accepted insns) {pc : ℕ} {insn : Insn}
    (hi : insns[pc]? = some insn) : insn ≠ .tailCall :=
  (h.fromWire insn (List.mem_of_getElem? hi)).ne_tailCall

/-- No instruction writes `R10`. -/
theorem Accepted.not_writes (h : Accepted insns) {pc : ℕ} {insn : Insn}
    (hi : insns[pc]? = some insn) : BpfReg.r10 ∉ insn.writes := by
  obtain ⟨A, hA⟩ := h.certificate
  exact (hA pc insn hi).not_writes

/-- The target of a jump, as the lowering computes it. -/
theorem Accepted.jumpPc_eq (h : Accepted insns) {pc : ℕ} {insn : Insn} {off : I16}
    (hi : insns[pc]? = some insn) (hoff : insn.jumpOff = some off) :
    ∃ q < insns.length, IsTarget pc off q ∧ ∀ ε, (jumpPc pc off : Rust ε ℕ) = .ok q := by
  obtain ⟨q, hq, ht⟩ := h.targets pc insn off hi hoff
  have hpc := (List.getElem?_eq_some_iff.1 hi).1
  have hlen := h.length_lt
  exact ⟨q, hq, ht, fun ε => NVMirror.jumpPc_eq ht (by omega) (by omega)⟩

/-! ### Leaders -/

theorem markLeader_meets (hacc : Accepted insns) {k : ℕ} {insn : Insn} {flags : List Bool}
    (hget : insns[k]? = some insn) (hlen : flags.length = insns.length) :
    Meets (markLeader insns.length flags (insn, k))
      (fun fl => fl.length = insns.length ∧ ∀ p < insns.length, IsSet fl p ↔ IsSet flags p ∨
        (insn.endsBlock ∧ p = k + 1 ∨ ∃ off, insn.jumpOff = some off ∧ IsTarget k off p))
      (fun _ => False) := by
  have hk := (List.getElem?_eq_some_iff.1 hget).1
  have hn := hacc.length_lt
  have hpanic : 2 ^ 62 ≤ insns.length → False := by omega
  cases insn with
  | ja off | jmpCond _ _ _ off | jmpCond32 _ _ _ off =>
    obtain ⟨q, hq, htarget, hjump⟩ := hacc.jumpPc_eq hget rfl
    dsimp only [markLeader]
    rw [hjump, ok_bind, if_pos hq, setAt_of_lt (by omega), ok_bind]
    refine (markNext_meets (by simpa using hlen) hk hpanic).imp fun fl hfl => ?_
    refine ⟨hfl.1, fun p hp => ?_⟩
    have hiff : IsTarget k off p ↔ p = q :=
      ⟨fun h => h.unique htarget, fun h => h ▸ htarget⟩
    rw [hfl.2 p hp, isSet_set (by omega), or_assoc, or_comm (a := p = q)]
    simp [Insn.endsBlock, Insn.jumpOff, hiff]
  | exit =>
    refine (markNext_meets hlen hk hpanic).imp fun fl hfl => ?_
    refine ⟨hfl.1, fun p hp => ?_⟩
    rw [hfl.2 p hp]
    simp [Insn.endsBlock, Insn.jumpOff]
  | tailCall => exact absurd rfl (hacc.ne_tailCall hget)
  | _ =>
    dsimp only [markLeader]
    refine Meets.ok ⟨hlen, fun p hp => ?_⟩
    simp [Insn.endsBlock, Insn.jumpOff]

/-- The lowering finds the leaders of the verifier. -/
theorem findLeaders_meets (hacc : Accepted insns) :
    Meets (findLeaders insns) (Marks Insn.endsBlock insns) (fun _ => False) := by
  have hloop := marks_foldlM (Q := fun _ _ => True) hacc.ne_nil fun k insn flags hget hlen =>
    (markLeader_meets hacc hget hlen).imp fun _ h => ⟨h, trivial⟩
  exact hloop.imp fun _ h => h.1

/-! ### Block numbers -/

/-- The number of the block of instruction `p`. -/
def bbIdAt (flags : List Bool) (p : ℕ) : BasicBlockId := ⟨BitVec.ofNat 32 (rank flags (p + 1) - 1)⟩

section

variable [Profile] {flags : List Bool}

theorem addU_one_of_lt {ε : Type} {k : ℕ} (h : k + 1 < 2 ^ 32) :
    (addU (BitVec.ofNat 32 k) 1 : Rust ε U32) = .ok (BitVec.ofNat 32 (k + 1)) := by
  have hover : BitVec.uaddOverflow (BitVec.ofNat 32 k) 1 = false := by
    simp [BitVec.uaddOverflow]
    omega
  rw [addU, overflowing_of_not hover]
  congr 1
  apply BitVec.eq_of_toNat_eq
  simp

/-- The number of a block is the rank of its leader. -/
theorem numberBlocks_meets (h0 : IsSet flags 0) (hlen : flags.length < 2 ^ 32) :
    Meets (numberBlocks flags)
      (fun pcToBb => pcToBb.length = flags.length ∧
        ∀ p < flags.length, pcToBb[p]? = some (bbIdAt flags p))
      (fun _ => False) := by
  let I : ℕ → List BasicBlockId × U32 → Prop := fun k acc =>
    acc.1.length = flags.length ∧ acc.2 = BitVec.ofNat 32 (rank flags k) ∧
      ∀ p < k, acc.1[p]? = some (bbIdAt flags p)
  have hI0 : I 0 (List.replicate flags.length ⟨0⟩, 0) := ⟨by simp, by simp, fun p hp => by omega⟩
  refine (Meets.foldlM I hI0 ?_).bind fun acc hacc => ?_
  · rintro k ⟨leader, k'⟩ ⟨pcToBb, nextBb⟩ hx ⟨hl, hnext, hget⟩
    obtain ⟨hk, rfl⟩ := getElem?_zipIdx_eq_some.1 hx
    have hlt : k < flags.length := (List.getElem?_eq_some_iff.1 hk).1
    dsimp only at hl hnext hget
    subst hnext
    -- entries before `k` stay, entry `k` is the number of the current block
    have hset : ∀ v, v = bbIdAt flags k → ∀ p < k + 1,
        (pcToBb.set k v)[p]? = some (bbIdAt flags p) := by
      rintro v rfl p hp
      rw [List.getElem?_set]
      split_ifs with h1 h2
      · rw [h1]
      · omega
      · exact hget p (by omega)
    cases leader with
    | true =>
      have hrank : rank flags (k + 1) = rank flags k + 1 := rank_succ_of_isSet hk
      have hle : rank flags (k + 1) ≤ k + 1 := rank_le flags (k + 1)
      dsimp only [numberPc]
      rw [if_pos rfl, setAt_of_lt (by omega), ok_bind, addU_one_of_lt (by omega), ok_bind]
      refine Meets.ok ⟨by simpa using hl, by rw [hrank], hset _ ?_⟩
      rw [bbIdAt, hrank, Nat.add_sub_cancel]
    | false =>
      have hnot : ¬ IsSet flags k := by
        intro h
        rw [IsSet, hk] at h
        cases h
      have hrank := rank_succ_of_not hnot
      have hpos : 0 < k := by
        by_contra hzero
        obtain rfl : k = 0 := by omega
        exact hnot h0
      have hprev := hget (k - 1) (by omega)
      dsimp only [numberPc]
      rw [if_neg (by simp), if_pos hpos, usizeSub_of_le hpos, ok_bind, index_of_getElem? hprev,
        ok_bind, setAt_of_lt (by omega), ok_bind]
      refine Meets.ok ⟨by simpa using hl, by rw [hrank], hset _ ?_⟩
      rw [bbIdAt, bbIdAt, hrank, Nat.sub_add_cancel hpos]
  · rw [List.length_zipIdx] at hacc
    exact Meets.ok ⟨hacc.1, hacc.2.2⟩

end

/-! ### Frame size -/

/-- The frame is empty, or at least 64 and at most 512 bytes; its size is a multiple of 16. -/
structure FrameSize (f : U16) : Prop where
  dvd : 16 ∣ f.toNat
  le : f.toNat ≤ 512
  ge : f ≠ 0 → 64 ≤ f.toNat

theorem stackOff_eq_some {insn : Insn} {o : I16} (h : stackOff insn = some o) :
    ∃ width, insn.memAccess = some (BpfReg.r10, o, width) := by
  cases insn with
  | load width dst src off | storeReg width dst src off | storeImm width dst off imm
  | atomic width op dst src off =>
    dsimp only [stackOff] at h
    split_ifs at h with hr
    subst hr
    cases h
    exact ⟨width, rfl⟩
  | _ => cases h

section

variable [Profile]

theorem negS_of_stack {ε : Type} {o : I16} (h1 : -(stackSize : ℤ) ≤ o.toInt) (h2 : o.toInt < 0) :
    ∃ needed, (negS o : Rust ε I16) = .ok needed ∧ (needed.toNat : ℤ) = -o.toInt := by
  unfold stackSize at h1
  have hne : BitVec.negOverflow o = false := by
    rw [BitVec.negOverflow]
    exact beq_eq_false_iff_ne.2 (by omega)
  refine ⟨-o, overflowing_of_not hne _, ?_⟩
  have h3 := BitVec.toInt_eq_toNat_cond o
  have h4 := o.isLt
  rw [BitVec.toNat_neg]
  split_ifs at h3 <;> omega

omit [Profile] in
/-- Clearing the low four bits rounds down to a multiple of 16. -/
theorem toNat_and_not_15 (x : U16) : (x &&& ~~~(15 : U16)).toNat = x.toNat / 16 * 16 := by
  have h : x &&& ~~~(15 : U16) = (x >>> 4) <<< 4 := by
    ext i hi
    interval_cases i <;> simp
  rw [h, BitVec.toNat_shiftLeft, BitVec.toNat_ushiftRight, Nat.shiftLeft_eq,
    Nat.shiftRight_eq_div_pow]
  have := x.isLt
  omega

omit [Profile] in
/-- The frame size of a program with needs `needs` and deepest access `f`. -/
theorem frameSize_round {f : U16} {needs : Bool} (hle : f.toNat ≤ 512)
    (hzero : needs = false → f = 0) :
    FrameSize (((if needs && f < 64 then 64 else f) + 15) &&& ~~~(15 : U16)) := by
  generalize hg : (if needs && f < 64 then (64 : U16) else f) = g
  have hg1 : g.toNat ≤ 512 ∧ (g = 0 ∨ 64 ≤ g.toNat) := by
    cases needs with
    | false =>
      rw [← hg, hzero rfl]
      simp
    | true =>
      by_cases hlt : f < 64
      · rw [← hg, if_pos (by rw [decide_eq_true hlt]; rfl)]
        simp
      · rw [← hg, if_neg (by rw [decide_eq_false hlt]; simp)]
        rw [BitVec.not_lt, BitVec.le_def] at hlt
        exact ⟨hle, Or.inr (by simpa using hlt)⟩
  have hadd : (g + 15).toNat = g.toNat + 15 := by
    rw [BitVec.toNat_add]
    simp
    omega
  have hval := toNat_and_not_15 (g + 15)
  rw [hadd] at hval
  refine ⟨⟨_, hval.trans (Nat.mul_comm _ _)⟩, by omega, fun hne => ?_⟩
  rcases hg1.2 with rfl | hge
  · exact absurd rfl hne
  · omega

/-- **The frame size.** -/
theorem frameSizeOf_meets (hacc : Accepted insns) :
    Meets (frameSizeOf insns) FrameSize (fun _ => False) := by
  obtain ⟨A, hA⟩ := hacc.certificate
  let I : ℕ → U16 × Bool → Prop := fun _ acc => acc.1.toNat ≤ 512 ∧ (acc.2 = false → acc.1 = 0)
  have hI0 : I 0 (0, false) := ⟨by simp, fun _ => rfl⟩
  refine (Meets.foldlM I hI0 ?_).bind fun acc hI => ?_
  · rintro k insn ⟨f, needs⟩ hk ⟨hle, hzero⟩
    dsimp only at hle hzero
    dsimp only [frameStep]
    cases ho : stackOff insn with
    | none =>
      refine Meets.ok ⟨hle, fun h => hzero ?_⟩
      exact (Bool.or_eq_false_iff.1 h).1
    | some o =>
      obtain ⟨width, hmem⟩ := stackOff_eq_some ho
      obtain ⟨hlow, hneg⟩ := (hA k insn hk).stack o width hmem
      obtain ⟨needed, hn, hval⟩ := negS_of_stack (ε := Empty) hlow hneg
      unfold stackSize at hlow
      dsimp only
      rw [hn, ok_bind]
      refine Meets.ok ⟨?_, fun h => by cases h⟩
      dsimp only
      split_ifs <;> omega
  · obtain ⟨f, needs⟩ := acc
    obtain ⟨hle, hzero⟩ := hI
    dsimp only at hle hzero
    have hover : BitVec.uaddOverflow (if needs && f < 64 then 64 else f) 15 = false := by
      have := f.isLt
      simp only [BitVec.uaddOverflow, decide_eq_false_iff_not]
      split_ifs
      · simp
      · simp
        omega
    dsimp only
    rw [addU, overflowing_of_not hover, ok_bind]
    exact Meets.ok (frameSize_round hle hzero)

end

/-! ### Blocks -/

/-- The prologue of a program with the given frame size. -/
def prologueOf (frameSize : U16) : List IrNode :=
  if 0 < frameSize then [.prologue frameSize] else []

/-- What precedes the lowered instructions in the block with index `i`. -/
def blockPrefix (frameSize : U16) (i : ℕ) : List IrNode :=
  if i = 0 then prologueOf frameSize else []

/-- The nodes lowered from the instructions `s, …, e - 1`. -/
def spanNodes (nodes : ℕ → List IrNode) (s e : ℕ) : List IrNode :=
  (List.range' s (e - s)).flatMap nodes

theorem spanNodes_self (nodes : ℕ → List IrNode) (s : ℕ) : spanNodes nodes s s = [] := by
  simp [spanNodes]

theorem spanNodes_succ (nodes : ℕ → List IrNode) {s e : ℕ} (h : s ≤ e) :
    spanNodes nodes s (e + 1) = spanNodes nodes s e ++ nodes e := by
  unfold spanNodes
  rw [Nat.sub_add_comm h, List.range'_concat, List.flatMap_append]
  simp [Nat.add_sub_cancel' h]

theorem spanNodes_append (nodes : ℕ → List IrNode) {s m e : ℕ} (h1 : s ≤ m) (h2 : m ≤ e) :
    spanNodes nodes s m ++ spanNodes nodes m e = spanNodes nodes s e := by
  obtain ⟨d, rfl⟩ := Nat.exists_eq_add_of_le h2
  induction d with
  | zero => rw [Nat.add_zero, spanNodes_self, List.append_nil]
  | succ d ih =>
    rw [← Nat.add_assoc, spanNodes_succ nodes (by omega), spanNodes_succ nodes (by omega),
      ← List.append_assoc, ih (by omega)]

/-- The lowered program: block `i` has number `i` and holds the nodes of the instructions from
leader `i` to the next. -/
structure Lowering (insns : List Insn) (regmap : RegMap) (flags : List Bool)
    (pcToBb : List BasicBlockId) (nodes : ℕ → List IrNode) (ir : IrProgram) : Prop where
  marks : Marks Insn.endsBlock insns flags
  pcToBb_eq : ∀ p < insns.length, pcToBb[p]? = some (bbIdAt flags p)
  frameSize : FrameSize ir.frameSize
  lower_eq : ∀ pc insn, insns[pc]? = some insn →
    lowerInsn regmap pcToBb ir.frameSize pc insn = .ok (nodes pc)
  length_eq : ir.blocks.length = (positions flags).length
  block_eq : ∀ (i s : ℕ), (positions flags)[i]? = some s → ir.blocks[i]? =
    some ⟨⟨BitVec.ofNat 32 i⟩, blockPrefix ir.frameSize i ++ spanNodes nodes s (blockStop flags i)⟩

section

variable [Profile] {flags : List Bool} {pcToBb : List BasicBlockId} {regmap : RegMap}
  {frameSize : U16} {nodes : ℕ → List IrNode}

omit [Profile] in
/-- Every instruction of an accepted program can be lowered, to at least one node. -/
theorem lowerInsn_ok (hacc : Accepted insns)
    (hbb : ∀ p < insns.length, pcToBb[p]? = some (bbIdAt flags p)) (regmap : RegMap)
    (frameSize : U16) {pc : ℕ} {insn : Insn} (hget : insns[pc]? = some insn) :
    ∃ ns, lowerInsn regmap pcToBb frameSize pc insn = .ok ns ∧ ns ≠ [] := by
  have htarget : ∀ off, insn.jumpOff = some off → ∃ t, targetBb pcToBb pc off = .ok t := by
    intro off hoff
    obtain ⟨q, hq, -, hjump⟩ := hacc.jumpPc_eq hget hoff
    exact ⟨_, by rw [targetBb, hjump, ok_bind, index_of_getElem? (hbb q hq)]⟩
  cases insn with
  | ja off | jmpCond op dst src off | jmpCond32 op dst src off =>
    obtain ⟨t, ht⟩ := htarget off rfl
    dsimp only [lowerInsn]
    rw [ht]
    exact ⟨_, rfl, by simp⟩
  | exit =>
    refine ⟨_, rfl, ?_⟩
    split_ifs <;> simp
  | _ => exact ⟨_, rfl, by simp⟩

/-- Blocks `0, …, c - 1` are finished, the nodes of block `c` so far are `current`. -/
structure BlockInv (flags : List Bool) (frameSize : U16) (nodes : ℕ → List IrNode) (c : ℕ)
    (current : List IrNode) (st : LowerState) : Prop where
  length_eq : st.blocks.length = c
  bbId_eq : st.bbId = BitVec.ofNat 32 c
  block_eq : ∀ (i s : ℕ), i < c → (positions flags)[i]? = some s →
    st.blocks[i]? = some ⟨⟨BitVec.ofNat 32 i⟩,
      blockPrefix frameSize i ++ spanNodes nodes s (blockStop flags i)⟩
  current_eq : st.currentNodes = current

omit [Profile] in
/-- Pushing the current block finishes it. -/
theorem BlockInv.flush {c s : ℕ} {st : LowerState} (hs : (positions flags)[c]? = some s)
    (h : BlockInv flags frameSize nodes c
      (blockPrefix frameSize c ++ spanNodes nodes s (blockStop flags c)) st) (bbId : U32)
    (hid : bbId = BitVec.ofNat 32 (c + 1)) :
    BlockInv flags frameSize nodes (c + 1) [] ⟨st.flush, [], bbId⟩ := by
  refine ⟨by simp [LowerState.flush, h.length_eq], hid, fun i s' hi hs' => ?_, rfl⟩
  rw [LowerState.flush, List.getElem?_append]
  split_ifs with hlt
  · exact h.block_eq i s' (h.length_eq ▸ hlt) hs'
  · obtain rfl : i = c := by
      have := h.length_eq
      omega
    rw [hs] at hs'
    cases hs'
    rw [h.length_eq, Nat.sub_self, h.bbId_eq, h.current_eq]
    rfl

/-- The state before instruction `k` is lowered, after a block may have been started. -/
def BeforeInsn (flags : List Bool) (frameSize : U16) (nodes : ℕ → List IrNode) (k : ℕ)
    (st : LowerState) : Prop :=
  ∃ c s, rank flags (k + 1) = c + 1 ∧ (positions flags)[c]? = some s ∧ s ≤ k ∧
    BlockInv flags frameSize nodes c (blockPrefix frameSize c ++ spanNodes nodes s k) st

/-- The state after the first `k` instructions. -/
def AfterInsns (flags : List Bool) (frameSize : U16) (nodes : ℕ → List IrNode) (k : ℕ)
    (st : LowerState) : Prop :=
  k = 0 ∧ st = ⟨[], [], 0⟩ ∨ 0 < k ∧ st.currentNodes ≠ [] ∧ ∃ c s, rank flags k = c + 1 ∧
    (positions flags)[c]? = some s ∧ s < k ∧
    BlockInv flags frameSize nodes c (blockPrefix frameSize c ++ spanNodes nodes s k) st

theorem startBlock_meets (h0 : IsSet flags 0) (hlen : flags.length < 2 ^ 32) {k : ℕ}
    (hk : k < flags.length) {st : LowerState} (h : AfterInsns flags frameSize nodes k st) :
    Meets (startBlock flags frameSize st k) (BeforeInsn flags frameSize nodes k)
      (fun _ => False) := by
  refine (meets_index hk).bind fun leader hleader => ?_
  rcases h with ⟨rfl, rfl⟩ | ⟨hpos, hne, c, s, hrank, hs, hlt, hinv⟩
  · -- the first block
    have hrank := rank_succ_of_isSet h0
    rw [rank_zero] at hrank
    obtain rfl : leader = true := by
      rw [IsSet, hleader] at h0
      exact Option.some.inj h0
    have hpos0 := getElem?_positions_rank h0
    rw [rank_zero] at hpos0
    have hbefore : BeforeInsn flags frameSize nodes 0 ⟨[], prologueOf frameSize, 0⟩ := by
      refine ⟨0, 0, hrank, hpos0, le_rfl, rfl, rfl, fun i s hi => by omega, ?_⟩
      rw [spanNodes_self, List.append_nil, blockPrefix, if_pos rfl]
    rw [if_pos ⟨rfl, Or.inr rfl⟩, if_neg (not_not.2 rfl), pure_eq, ok_bind]
    dsimp only
    by_cases hf : 0 < frameSize
    · rw [if_pos ⟨rfl, hf⟩]
      rw [prologueOf, if_pos hf] at hbefore
      exact Meets.ok hbefore
    · rw [if_neg fun h => hf h.2]
      rw [prologueOf, if_neg hf] at hbefore
      exact Meets.ok hbefore
  · cases leader with
    | true =>
      -- block `c` is finished, block `c + 1` starts
      have hset : IsSet flags k := hleader
      have hnext := getElem?_positions_rank hset
      rw [hrank] at hnext
      have hstop : blockStop flags c = k := by rw [blockStop, hnext, Option.getD_some]
      have hc : c + 1 < 2 ^ 32 := by
        have := rank_le flags k
        omega
      rw [if_pos ⟨rfl, Or.inl hne⟩, if_pos hne, hinv.bbId_eq, addU_one_of_lt hc, ok_bind,
        pure_eq, ok_bind]
      dsimp only
      rw [if_neg (by omega)]
      have hflush := BlockInv.flush hs (by rw [hstop]; exact hinv) _ rfl
      refine Meets.ok ⟨c + 1, k, by rw [rank_succ_of_isSet hset, hrank], hnext, le_rfl, ?_⟩
      rw [spanNodes_self, blockPrefix, if_neg (by omega)]
      exact hflush
    | false =>
      have hnot : ¬ IsSet flags k := by
        intro h
        rw [IsSet, hleader] at h
        cases h
      rw [if_neg (by simp)]
      exact Meets.ok ⟨c, s, by rw [rank_succ_of_not hnot, hrank], hs, hlt.le, hinv⟩

/-- Lowering one instruction. -/
theorem lowerStep_meets (h0 : IsSet flags 0) (hlen : flags.length < 2 ^ 32) {k : ℕ}
    (hk : k < flags.length) {insn : Insn} {st : LowerState}
    (hlower : lowerInsn regmap pcToBb frameSize k insn = .ok (nodes k)) (hne : nodes k ≠ [])
    (h : AfterInsns flags frameSize nodes k st) :
    Meets (lowerStep regmap flags pcToBb frameSize st (insn, k))
      (AfterInsns flags frameSize nodes (k + 1)) (fun _ => False) := by
  refine (startBlock_meets h0 hlen hk h).bind fun st' h' => ?_
  obtain ⟨c, s, hrank, hs, hle, hinv⟩ := h'
  rw [hlower, ok_bind]
  refine Meets.ok (Or.inr ⟨by omega, by simp [hne], c, s, hrank, hs, by omega, ?_⟩)
  refine ⟨hinv.length_eq, hinv.bbId_eq, hinv.block_eq, ?_⟩
  dsimp only
  rw [hinv.current_eq, spanNodes_succ nodes hle, List.append_assoc]

/-- **The lowering of an accepted program.** -/
theorem lowerToIr_meets (hacc : Accepted insns) (regmap : RegMap) :
    Meets (lowerToIr insns regmap)
      (fun ir => ∃ flags pcToBb nodes, Lowering insns regmap flags pcToBb nodes ir)
      (fun _ => False) := by
  have hn := hacc.length_lt
  refine (findLeaders_meets hacc).bind fun flags hmarks => ?_
  have hlen := hmarks.length_eq
  have h0 := hmarks.isSet_zero hacc.ne_nil
  refine (numberBlocks_meets h0 (by omega)).bind fun pcToBb hbb => ?_
  rw [hlen] at hbb
  refine (frameSizeOf_meets hacc).bind fun frameSize hframe => ?_
  -- the nodes of each instruction
  have hnodes : ∃ nodes : ℕ → List IrNode, ∀ pc insn, insns[pc]? = some insn →
      lowerInsn regmap pcToBb frameSize pc insn = .ok (nodes pc) ∧ nodes pc ≠ [] := by
    have hex : ∀ pc, ∃ ns, ∀ insn, insns[pc]? = some insn →
        lowerInsn regmap pcToBb frameSize pc insn = .ok ns ∧ ns ≠ [] := by
      intro pc
      cases hget : insns[pc]? with
      | none => exact ⟨[], fun insn h => by cases h⟩
      | some insn =>
        obtain ⟨ns, hns⟩ := lowerInsn_ok hacc hbb.2 regmap frameSize hget
        exact ⟨ns, fun insn' h => by cases h; exact hns⟩
    choose nodes hnodes using hex
    exact ⟨nodes, hnodes⟩
  obtain ⟨nodes, hnodes⟩ := hnodes
  refine (Meets.foldlM (AfterInsns flags frameSize nodes) (Or.inl ⟨rfl, rfl⟩) ?_).bind
    fun st hst => ?_
  · rintro k ⟨insn, k'⟩ st hx h
    obtain ⟨hget, rfl⟩ := getElem?_zipIdx_eq_some.1 hx
    have hk := (List.getElem?_eq_some_iff.1 hget).1
    obtain ⟨hlower, hne⟩ := hnodes k insn hget
    exact lowerStep_meets h0 (by omega) (by omega) hlower hne h
  · have hpos : 0 < insns.length := List.length_pos_iff.2 hacc.ne_nil
    rw [List.length_zipIdx] at hst
    rcases hst with ⟨hzero, -⟩ | ⟨-, hne, c, s, hrank, hs, -, hinv⟩
    · omega
    have hcount : (positions flags).length = c + 1 := by
      rw [length_positions, ← rank_length, hlen, hrank]
    have hstop : blockStop flags c = insns.length := by
      rw [blockStop, List.getElem?_eq_none (by omega), Option.getD_none, hlen]
    have hflush := BlockInv.flush hs (by rw [hstop]; exact hinv) _ rfl
    rw [if_pos hne]
    refine Meets.ok ⟨flags, pcToBb, nodes, hmarks, hbb.2, hframe,
      fun pc insn h => (hnodes pc insn h).1, by rw [hcount]; exact hflush.length_eq,
      fun i s' hs' => hflush.block_eq i s' ?_ hs'⟩
    have := (List.getElem?_eq_some_iff.1 hs').1
    omega

end

namespace Lowering

variable {regmap : RegMap} {flags : List Bool} {pcToBb : List BasicBlockId}
  {nodes : ℕ → List IrNode} {ir : IrProgram}

/-- The blocks before block `j` hold the prologue and the nodes of the instructions before
leader `j`. -/
theorem flatMap_take (h : Lowering insns regmap flags pcToBb nodes ir) (hne : insns ≠ [])
    {j : ℕ} (hj : j < ir.blocks.length) :
    (ir.blocks.take (j + 1)).flatMap IrBasicBlock.nodes =
      prologueOf ir.frameSize ++ spanNodes nodes 0 (blockStop flags j) := by
  have hs : ∀ i < ir.blocks.length, ∃ s, (positions flags)[i]? = some s := fun i hi =>
    ⟨_, List.getElem?_eq_getElem (h.length_eq ▸ hi)⟩
  induction j with
  | zero =>
    obtain ⟨s, hs0⟩ := hs 0 hj
    have h0 := h.marks.isSet_zero hne
    obtain rfl : s = 0 := by
      have := getElem?_positions_rank h0
      rw [rank_zero, hs0] at this
      exact Option.some.inj this
    rw [List.take_add_one, h.block_eq 0 0 hs0]
    simp [blockPrefix]
  | succ j ih =>
    obtain ⟨s, hs1⟩ := hs (j + 1) hj
    have hstart : blockStop flags j = s := by rw [blockStop, hs1, Option.getD_some]
    have hlt := start_lt_blockStop hs1
    rw [List.take_add_one, List.flatMap_append, ih (by omega), h.block_eq _ s hs1, hstart]
    simp only [Option.toList_some, List.flatMap_cons, List.flatMap_nil, List.append_nil,
      blockPrefix, Nat.add_one_ne_zero, if_false, List.nil_append]
    rw [List.append_assoc, spanNodes_append nodes (Nat.zero_le s) hlt.le]

/-- All nodes, in order. -/
theorem flatMap_nodes (h : Lowering insns regmap flags pcToBb nodes ir) (hne : insns ≠ []) :
    ir.blocks.flatMap IrBasicBlock.nodes =
      prologueOf ir.frameSize ++ spanNodes nodes 0 insns.length := by
  have h0 := getElem?_positions_rank (h.marks.isSet_zero hne)
  have hpos : 0 < ir.blocks.length := by
    have := (List.getElem?_eq_some_iff.1 h0).1
    rw [h.length_eq]
    omega
  have hall := h.flatMap_take hne (j := ir.blocks.length - 1) (by omega)
  have hstop : blockStop flags (ir.blocks.length - 1) = insns.length := by
    rw [blockStop, List.getElem?_eq_none (by rw [← h.length_eq]; omega), Option.getD_none,
      h.marks.length_eq]
  rwa [Nat.sub_add_cancel hpos, List.take_length, hstop] at hall

/-- The target of a jump: the number of the block that starts with the nodes of instruction
`pc + 1 + off`. -/
theorem target (h : Lowering insns regmap flags pcToBb nodes ir) (hacc : Accepted insns) {pc : ℕ}
    {insn : Insn} {off : I16} (hget : insns[pc]? = some insn) (hoff : insn.jumpOff = some off) :
    ∃ q < insns.length, IsTarget pc off q ∧ IsSet flags q ∧
      targetBb pcToBb pc off = .ok ⟨BitVec.ofNat 32 (rank flags q)⟩ := by
  obtain ⟨q, hq, htarget, hjump⟩ := hacc.jumpPc_eq hget hoff
  have hset := h.marks.isSet_target hget hoff hq htarget
  refine ⟨q, hq, htarget, hset, ?_⟩
  rw [targetBb, hjump, ok_bind, index_of_getElem? (h.pcToBb_eq q hq), bbIdAt,
    rank_succ_of_isSet hset, Nat.add_sub_cancel]

/-- The block of a leader. -/
theorem block_of_isSet (h : Lowering insns regmap flags pcToBb nodes ir) {q : ℕ}
    (hq : IsSet flags q) : ∃ b rest, ir.blocks[rank flags q]? = some b ∧
      b.nodes = blockPrefix ir.frameSize (rank flags q) ++ nodes q ++ rest := by
  have hs := getElem?_positions_rank hq
  have hlt := start_lt_blockStop hs
  refine ⟨_, spanNodes nodes (q + 1) (blockStop flags (rank flags q)), h.block_eq _ q hs, ?_⟩
  have hone : spanNodes nodes q (q + 1) = nodes q := by
    rw [spanNodes_succ nodes le_rfl, spanNodes_self, List.nil_append]
  dsimp only
  rw [← spanNodes_append nodes (Nat.le_succ q) hlt, hone, List.append_assoc]

theorem rank_lt (h : Lowering insns regmap flags pcToBb nodes ir) {q : ℕ} (hq : IsSet flags q) :
    rank flags q < ir.blocks.length := by
  rw [h.length_eq]
  exact (List.getElem?_eq_some_iff.1 (getElem?_positions_rank hq)).1

end Lowering

/-- No instruction is lowered to a prologue. -/
theorem prologue_notMem_lowerInsn {regmap : RegMap} {pcToBb : List BasicBlockId} {frameSize f : U16}
    {pc : ℕ} {insn : Insn} {ns : List IrNode}
    (h : lowerInsn regmap pcToBb frameSize pc insn = .ok ns) : .prologue f ∉ ns := by
  cases insn with
  | ja off | jmpCond op dst src off | jmpCond32 op dst src off =>
    obtain ⟨t, -, h⟩ := bind_eq_ok.1 h
    cases h
    simp
  | exit =>
    cases h
    split_ifs <;> simp
  | _ =>
    cases h
    simp

/-- A jump is lowered to one node, with the block of its target. -/
theorem lowerInsn_jump {regmap : RegMap} {pcToBb : List BasicBlockId} {frameSize : U16} {pc : ℕ}
    {insn : Insn} {off : I16} {t : BasicBlockId} {ns : List IrNode}
    (hoff : insn.jumpOff = some off) (ht : targetBb pcToBb pc off = .ok t)
    (h : lowerInsn regmap pcToBb frameSize pc insn = .ok ns) :
    ∃ node, ns = [node] ∧ node.target = some t := by
  cases insn with
  | ja off' | jmpCond op dst src off' | jmpCond32 op dst src off' =>
    cases hoff
    dsimp only [lowerInsn] at h
    rw [ht, ok_bind] at h
    cases h
    exact ⟨_, rfl, rfl⟩
  | _ => cases hoff

/-- A node with a target comes from a jump. -/
theorem jumpOff_of_target {regmap : RegMap} {pcToBb : List BasicBlockId} {frameSize : U16} {pc : ℕ}
    {insn : Insn} {ns : List IrNode} (h : lowerInsn regmap pcToBb frameSize pc insn = .ok ns)
    {node : IrNode} (hnode : node ∈ ns) {t : BasicBlockId} (ht : node.target = some t) :
    ∃ off, insn.jumpOff = some off ∧ targetBb pcToBb pc off = .ok t := by
  cases insn with
  | ja off | jmpCond op dst src off | jmpCond32 op dst src off =>
    obtain ⟨t', ht', h⟩ := bind_eq_ok.1 h
    cases h
    rw [List.mem_singleton.1 hnode] at ht
    cases ht
    exact ⟨off, rfl, ht'⟩
  | exit =>
    cases h
    split_ifs at hnode
    · rcases List.mem_pair.1 hnode with rfl | rfl <;> cases ht
    · rw [List.mem_singleton.1 hnode] at ht
      cases ht
  | tailCall =>
    cases h
    rcases List.mem_pair.1 hnode with rfl | rfl <;> cases ht
  | _ =>
    cases h
    rw [List.mem_singleton.1 hnode] at ht
    cases ht

namespace Lowering

variable {regmap : RegMap} {flags : List Bool} {pcToBb : List BasicBlockId}
  {nodes : ℕ → List IrNode} {ir : IrProgram}

/-- Block `i` exists only for a leader of rank `i`. -/
theorem exists_leader (h : Lowering insns regmap flags pcToBb nodes ir) {i : ℕ}
    {b : IrBasicBlock} (hb : ir.blocks[i]? = some b) : ∃ s, (positions flags)[i]? = some s ∧
      b = ⟨⟨BitVec.ofNat 32 i⟩,
        blockPrefix ir.frameSize i ++ spanNodes nodes s (blockStop flags i)⟩ := by
  have hi := (List.getElem?_eq_some_iff.1 hb).1
  have hs := List.getElem?_eq_getElem (h.length_eq ▸ hi)
  refine ⟨_, hs, ?_⟩
  rw [h.block_eq i _ hs] at hb
  exact (Option.some.inj hb).symm

/-- The only prologue is the first node of block 0. -/
theorem prologue_first (h : Lowering insns regmap flags pcToBb nodes ir) {i j : ℕ}
    {b : IrBasicBlock} {f : U16} (hb : ir.blocks[i]? = some b)
    (hj : b.nodes[j]? = some (.prologue f)) : i = 0 ∧ j = 0 := by
  obtain ⟨s, hs, rfl⟩ := h.exists_leader hb
  dsimp only at hj
  rw [List.getElem?_append] at hj
  split_ifs at hj with hlt
  · unfold blockPrefix prologueOf at hlt
    split_ifs at hlt with hi
    · exact ⟨hi, by simpa using hlt⟩
    · simp at hlt
    · simp at hlt
  · have hmem := List.mem_of_getElem? hj
    obtain ⟨pc, hpc, hmem⟩ := List.mem_flatMap.1 hmem
    have hlt : pc < insns.length := by
      have h1 := List.mem_range'_1.1 hpc
      have h2 := blockStop_le flags i
      rw [h.marks.length_eq] at h2
      omega
    exact absurd hmem (prologue_notMem_lowerInsn (h.lower_eq pc _ (List.getElem?_eq_getElem hlt)))

theorem id_toNat (h : Lowering insns regmap flags pcToBb nodes ir) (hlen : insns.length < 2 ^ 32)
    {i : ℕ} (hi : i < ir.blocks.length) : (BitVec.ofNat 32 i).toNat = i := by
  have h1 := length_positions_le flags
  rw [h.length_eq] at hi
  rw [h.marks.length_eq] at h1
  rw [BitVec.toNat_ofNat, Nat.mod_eq_of_lt (by omega)]

/-- The id of a block is its index. -/
theorem block_id (h : Lowering insns regmap flags pcToBb nodes ir) (hacc : Accepted insns) {i : ℕ}
    {b : IrBasicBlock} (hb : ir.blocks[i]? = some b) : b.id.id.toNat = i := by
  have hi := (List.getElem?_eq_some_iff.1 hb).1
  obtain ⟨s, -, rfl⟩ := h.exists_leader hb
  exact h.id_toNat hacc.length_lt hi

end Lowering

/-- The verifier's leaders, and so its number of blocks, are determined by the program. -/
theorem Marks.unique {ends : Insn → Bool} {flags flags' : List Bool} (h : Marks ends insns flags)
    (h' : Marks ends insns flags') : flags = flags' := by
  refine List.ext_getElem? fun p => ?_
  by_cases hp : p < insns.length
  · have hiff : IsSet flags p ↔ IsSet flags' p := (h.isSet_iff p hp).trans (h'.isSet_iff p hp).symm
    unfold IsSet at hiff
    have h1 := List.getElem?_eq_getElem (h.length_eq.symm ▸ hp)
    have h2 := List.getElem?_eq_getElem (h'.length_eq.symm ▸ hp)
    rw [h1, h2] at hiff ⊢
    simpa using hiff
  · rw [List.getElem?_eq_none (by rw [h.length_eq]; omega),
      List.getElem?_eq_none (by rw [h'.length_eq]; omega)]

/-- **Verifier and lowering agree.**  The lowering of an accepted program succeeds and has as many
blocks as the verifier counted; block `i` has number `i`; the nodes of the blocks are, in order,
the nodes of the instructions, after at most one prologue, which comes first in block 0; the
target of a jump is the number of the block that starts, after a possible prologue, with the nodes
of instruction `pc + 1 + off`. -/
theorem lowerToIr_layout [Profile] {raw : List RawInsn} {n : ℕ}
    (hdec : decodeProgram raw = .ok insns) (hver : verifyProgram insns = .ok n)
    (regmap : RegMap) :
    ∃ ir pcToBb nodes, lowerToIr insns regmap = .ok ir ∧ ir.blocks.length = n ∧
      (∀ (i : ℕ) b, ir.blocks[i]? = some b → b.id.id.toNat = i) ∧
      (∀ pc insn, insns[pc]? = some insn →
        lowerInsn regmap pcToBb ir.frameSize pc insn = .ok (nodes pc)) ∧
      ir.blocks.flatMap IrBasicBlock.nodes =
        prologueOf ir.frameSize ++ (List.range insns.length).flatMap nodes ∧
      (∀ (i j : ℕ) b f, ir.blocks[i]? = some b → b.nodes[j]? = some (.prologue f) →
        i = 0 ∧ j = 0) ∧
      ∀ (pc : ℕ) insn off, insns[pc]? = some insn → insn.jumpOff = some off →
        ∃ node t q b rest, nodes pc = [node] ∧ node.target = some t ∧
          IsTarget pc off q ∧ q < insns.length ∧ ir.blocks[t.id.toNat]? = some b ∧
          b.nodes = blockPrefix ir.frameSize t.id.toNat ++ nodes q ++ rest := by
  have hacc := accepted_of_ok hdec hver
  have hlen := hacc.length_lt
  obtain ⟨-, flags', hmarks', rfl⟩ := (verifyProgram_meets insns).of_ok hver
  obtain ⟨ir, hir, flags, pcToBb, nodes, h⟩ := (lowerToIr_meets hacc regmap).exists_ok
  refine ⟨ir, pcToBb, nodes, hir, ?_, fun i b hb => ?_, h.lower_eq, ?_,
    fun i j b f hb hj => h.prologue_first hb hj, fun pc insn off hget hoff => ?_⟩
  · rw [h.length_eq, h.marks.unique hmarks']
  · exact h.block_id hacc hb
  · rw [h.flatMap_nodes hacc.ne_nil, spanNodes, Nat.sub_zero, ← List.range_eq_range']
  · obtain ⟨q, hq, htarget, hset, ht⟩ := h.target hacc hget hoff
    obtain ⟨node, hnode, htn⟩ := lowerInsn_jump hoff ht (h.lower_eq pc insn hget)
    obtain ⟨b, rest, hb, hnodes⟩ := h.block_of_isSet hset
    have hid := h.id_toNat hlen (h.rank_lt hset)
    exact ⟨node, _, q, b, rest, hnode, htn, htarget, hq, by rw [hid]; exact hb,
      by rw [hid]; exact hnodes⟩

/-- `lowerToIr_layout` at the program `jumpOverLddw`, which has three blocks: the jump over the
`LDDW` is lowered to one node, whose target is the block of the `Exit`. -/
theorem lowerToIr_layout_jumpOverLddw :
    ∃ (ir : IrProgram) (nodes : ℕ → List IrNode) (node : IrNode) (t : BasicBlockId)
      (b : IrBasicBlock) (rest : List IrNode),
      @lowerToIr debug jumpOverLddwInsns aarch64Regmap = .ok ir ∧ ir.blocks.length = 3 ∧
        ir.blocks.flatMap IrBasicBlock.nodes =
          prologueOf ir.frameSize ++ (List.range 5).flatMap nodes ∧
        nodes 1 = [node] ∧ node.target = some t ∧ ir.blocks[t.id.toNat]? = some b ∧
        b.nodes = blockPrefix ir.frameSize t.id.toNat ++ nodes 4 ++ rest := by
  have hok : verifyProgram jumpOverLddwInsns = .ok 3 := rfl
  obtain ⟨ir, -, nodes, hir, hlen, -, -, hnodes, -, htargets⟩ :=
    @lowerToIr_layout _ debug _ _ decode_jumpOverLddw hok aarch64Regmap
  obtain ⟨node, t, q, b, rest, hnode, ht, htarget, -, hb, hrest⟩ := htargets 1 _ 2 rfl rfl
  obtain rfl : q = 4 := htarget.unique (show IsTarget 1 2 4 by unfold IsTarget; decide)
  exact ⟨ir, nodes, node, t, b, rest, hir, hlen, hnodes, hnode, ht, hb, hrest⟩

end NVMirror
