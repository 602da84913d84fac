import NVMirror.EbpfCore.Flow

/-!
# The verifier's basic blocks

What phase 1 of the verifier computes.  `findBbStarts` marks the leaders (`IsLeader`) and checks
that every jump stays in the program; `buildCfg` turns them into blocks whose successors are the
blocks of the edges leaving the last instruction (`IsBlock`).  `Cfg` collects what the later
phases rely on.
-/

namespace NVMirror

open Rust Leaders

/-- Programs of this length do not exist; only they could exceed the range of `isize`. -/
def Oversized (insns : List Insn) : Prop := 2 ^ 62 ≤ insns.length

/-- A block starts at `p`: the entry, a jump target, or the instruction after one that ends a
block. -/
def IsLeader (ends : Insn → Bool) (insns : List Insn) (p : ℕ) : Prop :=
  p = 0 ∨ ∃ pc insn, insns[pc]? = some insn ∧
    (ends insn ∧ p = pc + 1 ∨ ∃ off, insn.jumpOff = some off ∧ IsTarget pc off p)

/-- The flags mark exactly the leaders. -/
structure Marks (ends : Insn → Bool) (insns : List Insn) (flags : List Bool) : Prop where
  length_eq : flags.length = insns.length
  isSet_iff : ∀ p < insns.length, IsSet flags p ↔ IsLeader ends insns p

/-- Every jump stays in the program. -/
def TargetsInBounds (insns : List Insn) : Prop :=
  ∀ pc insn off, insns[pc]? = some insn → insn.jumpOff = some off →
    ∃ q < insns.length, IsTarget pc off q

section Phase1

variable {insns : List Insn} {F : Fault VerifyError → Prop}

theorem resolveBranch_meets {pc n : ℕ} {off : I16} (hpc : pc < n)
    (hpanic : 2 ^ 62 ≤ n → F .panic)
    (herr : ∀ t : ℤ, t = pc + 1 + off.toInt → ¬ (0 ≤ t ∧ t < n) →
      F (.err (.branchOutOfBounds pc t))) :
    Meets (resolveBranch pc off n) (fun q => q < n ∧ IsTarget pc off q) F := by
  have hoff := off_range off
  refine (meets_toIsize fun h => hpanic (by omega)).bind fun pcI hpcI => ?_
  refine (meets_isizeAdd fun h => hpanic (by omega)).bind fun pc1 hpc1 => ?_
  refine (meets_isizeAdd fun h => hpanic (by omega)).bind fun target htarget => ?_
  refine (meets_toIsize fun h => hpanic (by omega)).bind fun len hlen => ?_
  split_ifs with hrange
  · exact Meets.fail (herr target (by omega) (by omega))
  · refine Meets.ok ?_
    unfold IsTarget asUsize
    omega

/-- The leaders found in the first `k + 1` instructions. -/
theorem isLeader_take_succ {ends : Insn → Bool} {k p : ℕ} {insn : Insn}
    (h : insns[k]? = some insn) :
    IsLeader ends (insns.take (k + 1)) p ↔ IsLeader ends (insns.take k) p ∨
      (ends insn ∧ p = k + 1 ∨ ∃ off, insn.jumpOff = some off ∧ IsTarget k off p) := by
  have hget : ∀ pc i, (insns.take (k + 1))[pc]? = some i ↔
      (insns.take k)[pc]? = some i ∨ pc = k ∧ i = insn := by
    intro pc i
    rcases Nat.lt_trichotomy pc k with hlt | rfl | hgt
    · rw [List.getElem?_take_of_lt hlt, List.getElem?_take_of_lt (by omega)]
      exact ⟨Or.inl, fun h => h.resolve_right (by omega)⟩
    · rw [List.getElem?_take_of_lt (by omega), h, List.getElem?_take_eq_none le_rfl]
      simp [eq_comm]
    · rw [List.getElem?_take_eq_none (by omega), List.getElem?_take_eq_none (by omega)]
      exact ⟨fun h => (by cases h), fun h => h.elim (by simp) (by omega)⟩
  constructor
  · rintro (h0 | ⟨pc, i, hi, hp⟩)
    · exact Or.inl (Or.inl h0)
    · rcases (hget pc i).1 hi with hi | ⟨rfl, rfl⟩
      · exact Or.inl (Or.inr ⟨pc, i, hi, hp⟩)
      · exact Or.inr hp
  · rintro ((h0 | ⟨pc, i, hi, hp⟩) | hp)
    · exact Or.inl h0
    · exact Or.inr ⟨pc, i, (hget pc i).2 (Or.inl hi), hp⟩
    · exact Or.inr ⟨k, insn, (hget k insn).2 (Or.inr ⟨rfl, rfl⟩), hp⟩

theorem markNext_meets {ε : Type} {F : Fault ε → Prop} {n pc : ℕ} {flags : List Bool}
    (hlen : flags.length = n) (hpc : pc < n) (hpanic : 2 ^ 62 ≤ n → F .panic) :
    Meets (markNext n pc flags)
      (fun fl => fl.length = n ∧ ∀ p < n, IsSet fl p ↔ IsSet flags p ∨ p = pc + 1) F := by
  refine (meets_usizeAdd fun h => hpanic (by omega)).bind fun pc1 hpc1 => ?_
  obtain ⟨-, rfl⟩ := hpc1
  split_ifs with h
  · refine (meets_setAt (by omega)).imp fun fl hfl => ?_
    subst hfl
    exact ⟨by simpa using hlen, fun p _ => isSet_set (by omega)⟩
  · exact Meets.ok ⟨hlen, fun p hp => ⟨Or.inl, fun h' => h'.resolve_right (by omega)⟩⟩

/-- Marking the two instructions that may follow a jump. -/
theorem markJump_meets {n k : ℕ} {off : I16} {flags : List Bool} (hlen : flags.length = n)
    (hk : k < n) (hpanic : 2 ^ 62 ≤ n → F .panic)
    (herr : ∀ t : ℤ, t = k + 1 + off.toInt → ¬ (0 ≤ t ∧ t < n) →
      F (.err (.branchOutOfBounds k t))) :
    Meets (do
        let target ← resolveBranch k off n
        let isStart ← setAt flags target true
        markNext n k isStart)
      (fun fl => (fl.length = n ∧
          ∀ p < n, IsSet fl p ↔ IsSet flags p ∨ (p = k + 1 ∨ IsTarget k off p)) ∧
        ∃ q < n, IsTarget k off q) F := by
  refine (resolveBranch_meets hk hpanic herr).bind fun q hq => ?_
  refine (meets_setAt (by omega)).bind fun fl hfl => ?_
  subst hfl
  refine (markNext_meets (by simpa using hlen) hk hpanic).imp fun fl hfl => ?_
  refine ⟨⟨hfl.1, fun p hp => ?_⟩, q, hq⟩
  rw [hfl.2 p hp, isSet_set (by omega), or_assoc, or_comm (a := p = q)]
  have htarget : p = q ↔ IsTarget k off p :=
    ⟨fun h => h ▸ hq.2, fun h => h.unique hq.2⟩
  rw [htarget]

/-- One iteration of `findBbStarts` marks what instruction `k` makes a leader. -/
theorem markStarts_meets {n k : ℕ} {insn : Insn} {flags : List Bool} (hlen : flags.length = n)
    (hk : k < n) (hpanic : 2 ^ 62 ≤ n → F .panic)
    (herr : ∀ off, insn.jumpOff = some off → ∀ t : ℤ, t = k + 1 + off.toInt →
      ¬ (0 ≤ t ∧ t < n) → F (.err (.branchOutOfBounds k t))) :
    Meets (markStarts n flags (insn, k))
      (fun fl => (fl.length = n ∧ ∀ p < n, IsSet fl p ↔ IsSet flags p ∨
          (insn.endsBlock ∧ p = k + 1 ∨ ∃ off, insn.jumpOff = some off ∧ IsTarget k off p)) ∧
        ∀ off, insn.jumpOff = some off → ∃ q < n, IsTarget k off q) F := by
  cases insn with
  | ja off | jmpCond _ _ _ off | jmpCond32 _ _ _ off =>
    refine (markJump_meets hlen hk hpanic (herr off rfl)).imp fun fl hfl => ?_
    obtain ⟨⟨hlen', hset⟩, hq⟩ := hfl
    refine ⟨⟨hlen', fun p hp => ?_⟩, fun off' hoff => ?_⟩
    · simpa [Insn.endsBlock, Insn.jumpOff] using hset p hp
    · cases hoff
      exact hq
  | exit =>
    refine (markNext_meets hlen hk hpanic).imp fun fl hfl => ?_
    refine ⟨⟨hfl.1, fun p hp => ?_⟩, by simp [Insn.jumpOff]⟩
    rw [hfl.2 p hp]
    simp [Insn.endsBlock, Insn.jumpOff]
  | _ =>
    refine Meets.ok ⟨⟨hlen, fun p hp => ?_⟩, by simp [Insn.jumpOff]⟩
    simp [Insn.endsBlock, Insn.jumpOff]

/-- **Marking loop.**  A loop over the instructions that marks, for each of them, what it makes a
leader, marks exactly the leaders. -/
theorem marks_foldlM {ε : Type} {F : Fault ε → Prop} {ends : Insn → Bool}
    {f : List Bool → Insn × ℕ → Rust ε (List Bool)} {Q : ℕ → Insn → Prop} (hne : insns ≠ [])
    (hstep : ∀ k insn flags, insns[k]? = some insn → flags.length = insns.length →
      Meets (f flags (insn, k)) (fun fl => (fl.length = insns.length ∧
        ∀ p < insns.length, IsSet fl p ↔ IsSet flags p ∨
          (ends insn ∧ p = k + 1 ∨ ∃ off, insn.jumpOff = some off ∧ IsTarget k off p)) ∧
        Q k insn) F) :
    Meets (do
        let flags ← setAt (List.replicate insns.length false) 0 true
        insns.zipIdx.foldlM f flags)
      (fun fl => Marks ends insns fl ∧ ∀ k insn, insns[k]? = some insn → Q k insn) F := by
  have hpos : 0 < insns.length := List.length_pos_iff.2 hne
  refine (meets_setAt (by simpa using hpos)).bind fun flags0 hflags0 => ?_
  subst hflags0
  -- the invariant after `k` iterations speaks of the first `k` instructions
  let I : ℕ → List Bool → Prop := fun k fl =>
    (fl.length = insns.length ∧
      ∀ p < insns.length, IsSet fl p ↔ IsLeader ends (insns.take k) p) ∧
    ∀ pc insn, pc < k → insns[pc]? = some insn → Q pc insn
  have hI0 : I 0 ((List.replicate insns.length false).set 0 true) := by
    refine ⟨⟨by simp, fun p hp => ?_⟩, fun pc insn h => by omega⟩
    rw [isSet_set (by simpa using hpos)]
    simp [IsSet, IsLeader, hp]
  refine (Meets.foldlM I hI0 ?_).imp fun flags hflags => ?_
  · rintro k ⟨insn, k'⟩ fl hx ⟨⟨hlen, hset⟩, hin⟩
    obtain ⟨hget, rfl⟩ := getElem?_zipIdx_eq_some.1 hx
    refine (hstep k insn fl hget hlen).imp fun fl' hfl' => ?_
    obtain ⟨⟨hlen', hset'⟩, hq⟩ := hfl'
    refine ⟨⟨hlen', fun p hp => ?_⟩, fun pc i hpc hi => ?_⟩
    · rw [hset' p hp, hset p hp, isLeader_take_succ hget]
    · rcases Nat.lt_succ_iff_lt_or_eq.1 hpc with hlt | rfl
      · exact hin pc i hlt hi
      · rw [hget] at hi
        cases hi
        exact hq
  · obtain ⟨⟨hlen, hset⟩, hin⟩ := hflags
    rw [List.length_zipIdx, List.take_length] at hset
    refine ⟨⟨hlen, hset⟩, fun pc insn hi => hin pc insn ?_ hi⟩
    rw [List.length_zipIdx]
    exact (List.getElem?_eq_some_iff.1 hi).1

/-- **Phase 1, leaders.**  `findBbStarts` lists the leaders; every jump stays in the program. -/
theorem findBbStarts_meets (hne : insns ≠ []) (hpanic : Oversized insns → F .panic)
    (herr : ∀ (pc : ℕ) insn off, insns[pc]? = some insn → insn.jumpOff = some off →
      ∀ t : ℤ, t = pc + 1 + off.toInt → ¬ (0 ≤ t ∧ t < insns.length) →
      F (.err (.branchOutOfBounds pc t))) :
    Meets (findBbStarts insns)
      (fun starts => TargetsInBounds insns ∧
        ∃ flags, Marks Insn.endsBlock insns flags ∧ starts = positions flags) F := by
  have hloop : Meets (do
        let isStart ← setAt (List.replicate insns.length false) 0 true
        insns.zipIdx.foldlM (markStarts insns.length) isStart)
      (fun fl => Marks Insn.endsBlock insns fl ∧ ∀ k insn, insns[k]? = some insn →
        ∀ off, insn.jumpOff = some off → ∃ q < insns.length, IsTarget k off q) F :=
    marks_foldlM hne fun k insn flags hget hlen =>
      markStarts_meets hlen (List.getElem?_eq_some_iff.1 hget).1 hpanic
        fun off => herr k insn off hget
  unfold findBbStarts
  rw [← bind_assoc]
  refine hloop.bind fun flags hflags => ?_
  exact Meets.ok ⟨fun pc insn off hi hoff => hflags.2 pc insn hi off hoff, flags, hflags.1, rfl⟩

/-! ### The blocks -/

/-- The block with index `i`: a leader, the instruction before the next leader, and the blocks of
the edges that leave the last instruction. -/
structure IsBlock (insns : List Insn) (flags : List Bool) (i : ℕ) (b : BasicBlock) : Prop where
  start_eq : (positions flags)[i]? = some b.start
  stop_eq : b.stop = blockStop flags i
  mem_successors : ∀ j, j ∈ b.successors ↔ ∃ q, Edge insns (b.stop - 1) q ∧ j = rank flags q

/-- The blocks of a program. -/
structure Cfg (insns : List Insn) (flags : List Bool) (bbs : List BasicBlock) : Prop where
  length_eq : bbs.length = (positions flags).length
  isBlock : ∀ i b, bbs[i]? = some b → IsBlock insns flags i b

namespace Marks

variable {ends : Insn → Bool} {flags : List Bool}

theorem isSet_zero (h : Marks ends insns flags) (hne : insns ≠ []) : IsSet flags 0 :=
  (h.isSet_iff 0 (List.length_pos_iff.2 hne)).2 (Or.inl rfl)

theorem isSet_target (h : Marks ends insns flags) {pc q : ℕ} {insn : Insn} {off : I16}
    (hinsn : insns[pc]? = some insn) (hoff : insn.jumpOff = some off) (hq : q < insns.length)
    (ht : IsTarget pc off q) : IsSet flags q :=
  (h.isSet_iff q hq).2 (Or.inr ⟨pc, insn, hinsn, Or.inr ⟨off, hoff, ht⟩⟩)

theorem isSet_succ (h : Marks ends insns flags) {pc : ℕ} {insn : Insn}
    (hinsn : insns[pc]? = some insn) (hends : ends insn) (hlt : pc + 1 < insns.length) :
    IsSet flags (pc + 1) :=
  (h.isSet_iff (pc + 1) hlt).2 (Or.inr ⟨pc, insn, hinsn, Or.inl ⟨hends, rfl⟩⟩)

end Marks

theorem blockEnd_meets {flags : List Bool} {i : ℕ} (hi : i < (positions flags).length)
    (hpanic : 2 ^ 62 ≤ flags.length → F .panic) :
    Meets (blockEnd flags.length (positions flags) i) (fun e => e = blockStop flags i) F := by
  have hle := length_positions_le flags
  refine (meets_usizeAdd fun h => hpanic (by omega)).bind fun i1 hi1 => ?_
  obtain ⟨-, rfl⟩ := hi1
  unfold blockStop
  split_ifs with h
  · refine (meets_index h).imp fun e he => ?_
    rw [he]
    rfl
  · rw [List.getElem?_eq_none (by omega)]
    exact Meets.ok rfl

/-- The instruction-to-block map. -/
structure BlockMap (flags : List Bool) (insnToBb : List ℕ) : Prop where
  length_eq : insnToBb.length = flags.length
  getElem?_eq : ∀ p < flags.length, insnToBb[p]? = some (rank flags (p + 1) - 1)

theorem BlockMap.meets_index {flags : List Bool} {insnToBb : List ℕ}
    (h : BlockMap flags insnToBb) {p : ℕ} (hp : IsSet flags p) :
    Meets (index insnToBb p) (fun i => i = rank flags p) F := by
  refine (Rust.meets_index (by rw [h.length_eq]; exact hp.lt_length)).imp fun i hi => ?_
  rw [h.getElem?_eq p hp.lt_length, rank_succ_of_isSet hp] at hi
  simpa using hi.symm

theorem fillInsnToBb_meets {flags : List Bool} {m : List ℕ} {i s : ℕ}
    (hs : (positions flags)[i]? = some s) (hlen : m.length = flags.length)
    (hm : ∀ p < flags.length, rank flags (p + 1) ≤ i → m[p]? = some (rank flags (p + 1) - 1))
    (hpanic : 2 ^ 62 ≤ flags.length → F .panic) :
    Meets (fillInsnToBb flags.length (positions flags) m (s, i))
      (fun m' => m'.length = flags.length ∧ ∀ p < flags.length, rank flags (p + 1) ≤ i + 1 →
        m'[p]? = some (rank flags (p + 1) - 1)) F := by
  have hi : i < (positions flags).length := (List.getElem?_eq_some_iff.1 hs).1
  refine (blockEnd_meets hi hpanic).bind fun stop hstop => ?_
  subst hstop
  have hlt := start_lt_blockStop hs
  have hle := blockStop_le flags i
  refine (meets_foldlM_setAt (by omega)).imp fun m' hm' => ?_
  obtain ⟨hlen', hget⟩ := hm'
  refine ⟨hlen'.trans hlen, fun p hp hrank => ?_⟩
  rw [hget p]
  split_ifs with hin
  · rw [rank_of_mem_block hs hin.1 (by omega), Nat.add_sub_cancel]
  · refine hm p hp ?_
    -- a position of rank `i + 1` outside the block would lie before its leader
    have h1 := lt_rank_iff (q := p + 1) hs
    have h2 := lt_blockStop_iff (p := p) hi
    omega

theorem fillBlocks_meets {flags : List Bool} (hpanic : 2 ^ 62 ≤ flags.length → F .panic) :
    Meets ((positions flags).zipIdx.foldlM (fillInsnToBb flags.length (positions flags))
      (List.replicate flags.length 0)) (BlockMap flags) F := by
  let I : ℕ → List ℕ → Prop := fun i m => m.length = flags.length ∧
    ∀ p < flags.length, rank flags (p + 1) ≤ i → m[p]? = some (rank flags (p + 1) - 1)
  have hI0 : I 0 (List.replicate flags.length 0) := by
    refine ⟨by simp, fun p hp hrank => ?_⟩
    rw [List.getElem?_replicate, if_pos hp]
    congr 1
    omega
  refine (Meets.foldlM I hI0 ?_).imp fun m hm => ?_
  · rintro i ⟨s, i'⟩ m hx ⟨hlen, hm⟩
    obtain ⟨hs, rfl⟩ := getElem?_zipIdx_eq_some.1 hx
    exact fillInsnToBb_meets hs hlen hm hpanic
  · refine ⟨hm.1, fun p hp => hm.2 p hp ?_⟩
    rw [List.length_zipIdx, length_positions, ← rank_length]
    exact rank_mono flags hp

section Successors

variable {flags : List Bool} {insnToBb : List ℕ} {pc : ℕ} {insn : Insn}

theorem fallthroughSuccessor_meets (hmap : BlockMap flags insnToBb)
    (hset : pc + 1 < flags.length → IsSet flags (pc + 1)) :
    Meets (fallthroughSuccessor flags.length insnToBb (pc + 1))
      (fun l => ∀ j, j ∈ l ↔ pc + 1 < flags.length ∧ j = rank flags (pc + 1)) F := by
  unfold fallthroughSuccessor
  split_ifs with h
  · refine (hmap.meets_index (hset h)).bind fun i hi => ?_
    subst hi
    exact Meets.ok fun j => by simp [h]
  · exact Meets.ok fun j => by simp [h]

theorem jumpSuccessor_meets (hmap : BlockMap flags insnToBb)
    (hmarks : Marks Insn.endsBlock insns flags) (hin : TargetsInBounds insns) {off : I16}
    (hinsn : insns[pc]? = some insn) (hoff : insn.jumpOff = some off)
    (hpanic : 2 ^ 62 ≤ flags.length → F .panic) (l : List ℕ) :
    Meets (do
        let target ← resolveBranch pc off flags.length
        let bb ← index insnToBb target
        pure (l ++ [bb]))
      (fun l' => ∃ q < flags.length, IsTarget pc off q ∧ l' = l ++ [rank flags q]) F := by
  have hlen := hmarks.length_eq
  have hpc : pc < flags.length := by
    rw [hlen]
    exact (List.getElem?_eq_some_iff.1 hinsn).1
  refine (resolveBranch_meets hpc hpanic fun t ht hout => ?_).bind fun q hq => ?_
  · -- phase 1 has already resolved this branch
    obtain ⟨q, hq, htarget⟩ := hin pc insn off hinsn hoff
    unfold IsTarget at htarget
    omega
  · have hset := hmarks.isSet_target hinsn hoff (hlen ▸ hq.1) hq.2
    refine (hmap.meets_index hset).bind fun i hi => ?_
    subst hi
    exact Meets.ok ⟨q, hq.1, hq.2, rfl⟩

/-- The successors of a block are the blocks of the edges that leave its last instruction. -/
theorem blockSuccessors_meets (hmap : BlockMap flags insnToBb)
    (hmarks : Marks Insn.endsBlock insns flags) (hin : TargetsInBounds insns)
    (hinsn : insns[pc]? = some insn) (hset : pc + 1 < flags.length → IsSet flags (pc + 1))
    (hpanic : 2 ^ 62 ≤ flags.length → F .panic) :
    Meets (blockSuccessors flags.length insnToBb (pc + 1) pc insn)
      (fun l => ∀ j, j ∈ l ↔ ∃ q, Edge insns pc q ∧ j = rank flags q) F := by
  have hedge : ∀ q, Edge insns pc q ↔ q < flags.length ∧
      (insn.fallsThrough ∧ q = pc + 1 ∨ ∃ off, insn.jumpOff = some off ∧ IsTarget pc off q) := by
    intro q
    rw [Edge, hinsn, hmarks.length_eq]
    simp
  have hfall := fallthroughSuccessor_meets (F := F) hmap hset
  simp only [hedge]
  cases insn with
  | ja off =>
    refine (jumpSuccessor_meets hmap hmarks hin hinsn rfl hpanic []).imp fun l hl j => ?_
    obtain ⟨q, hq, htarget, rfl⟩ := hl
    simp only [Insn.fallsThrough, Insn.jumpOff, List.nil_append, List.mem_singleton]
    constructor
    · rintro rfl
      exact ⟨q, ⟨hq, Or.inr ⟨off, rfl, htarget⟩⟩, rfl⟩
    · rintro ⟨q', ⟨-, h | ⟨off', hoff, htarget'⟩⟩, rfl⟩
      · cases h.1
      · cases hoff
        rw [htarget.unique htarget']
  | jmpCond op dst src off | jmpCond32 op dst src off =>
    refine hfall.bind fun l hl => ?_
    refine (jumpSuccessor_meets hmap hmarks hin hinsn rfl hpanic l).imp fun l' hl' j => ?_
    obtain ⟨q, hq, htarget, rfl⟩ := hl'
    simp only [Insn.fallsThrough, Insn.jumpOff, List.mem_append, List.mem_singleton, hl]
    constructor
    · rintro (⟨hlt, rfl⟩ | rfl)
      · exact ⟨pc + 1, ⟨hlt, Or.inl ⟨trivial, rfl⟩⟩, rfl⟩
      · exact ⟨q, ⟨hq, Or.inr ⟨off, rfl, htarget⟩⟩, rfl⟩
    · rintro ⟨q', ⟨hlt, ⟨-, rfl⟩ | ⟨off', hoff, htarget'⟩⟩, rfl⟩
      · exact Or.inl ⟨hlt, rfl⟩
      · cases hoff
        exact Or.inr (by rw [htarget.unique htarget'])
  | exit =>
    refine Meets.ok fun j => ?_
    simp [Insn.fallsThrough, Insn.jumpOff]
  | _ =>
    refine hfall.imp fun l hl j => ?_
    simp only [hl, Insn.fallsThrough, Insn.jumpOff, true_and, reduceCtorEq, false_and,
      exists_false, or_false]
    constructor
    · rintro ⟨hlt, rfl⟩
      exact ⟨pc + 1, ⟨hlt, rfl⟩, rfl⟩
    · rintro ⟨q, ⟨hlt, rfl⟩, rfl⟩
      exact ⟨hlt, rfl⟩

end Successors

/-- The next block starts at a leader. -/
theorem isSet_stop {flags : List Bool} {i pc : ℕ} (hpc : blockStop flags i = pc + 1)
    (hlt : pc + 1 < flags.length) : IsSet flags (pc + 1) := by
  rw [← hpc] at hlt ⊢
  exact (isSet_blockStop hlt).1

theorem pushBlock_meets {flags : List Bool} {insnToBb : List ℕ} {i s : ℕ} {bbs : List BasicBlock}
    (hmap : BlockMap flags insnToBb) (hmarks : Marks Insn.endsBlock insns flags)
    (hin : TargetsInBounds insns) (hs : (positions flags)[i]? = some s)
    (hpanic : Oversized insns → F .panic) :
    Meets (pushBlock insns (positions flags) insnToBb bbs (s, i))
      (fun bbs' => ∃ b, IsBlock insns flags i b ∧ b.reachable = decide (i = 0) ∧
        (i = 0 → b.regStateIn = RegFile.newEntry) ∧ bbs' = bbs ++ [b]) F := by
  have hlen := hmarks.length_eq
  have hpanic' : 2 ^ 62 ≤ flags.length → F .panic := fun h => hpanic (by rwa [Oversized, ← hlen])
  have hi : i < (positions flags).length := (List.getElem?_eq_some_iff.1 hs).1
  obtain ⟨pc, hpc⟩ : ∃ pc, blockStop flags i = pc + 1 :=
    ⟨blockStop flags i - 1, by have := start_lt_blockStop hs; omega⟩
  have hlt : pc < insns.length := by
    have := blockStop_le flags i
    omega
  have hinsn := List.getElem?_eq_getElem hlt
  unfold pushBlock
  rw [← hlen]
  refine (blockEnd_meets hi hpanic').bind fun stop hstop => ?_
  rw [hpc] at hstop
  subst hstop
  refine (meets_usizeSub (by omega)).bind fun lastPc hlast => ?_
  rw [Nat.add_sub_cancel] at hlast
  subst hlast
  rw [index_of_getElem? hinsn, ok_bind]
  refine (blockSuccessors_meets hmap hmarks hin hinsn (isSet_stop hpc) hpanic').bind
    fun succs hsuccs => ?_
  refine Meets.ok ⟨_, ⟨hs, hpc.symm, hsuccs⟩, rfl, fun h => ?_, rfl⟩
  exact if_pos h

/-- **Phase 1, blocks.**  `buildCfg` lists the blocks; only the entry block is reachable yet. -/
theorem buildCfg_meets {flags : List Bool} (hmarks : Marks Insn.endsBlock insns flags)
    (hin : TargetsInBounds insns) (hpanic : Oversized insns → F .panic) :
    Meets (buildCfg insns (positions flags))
      (fun bbs => Cfg insns flags bbs ∧ ∀ i b, bbs[i]? = some b →
        b.reachable = decide (i = 0) ∧ (i = 0 → b.regStateIn = RegFile.newEntry)) F := by
  have hlen := hmarks.length_eq
  have hpanic' : 2 ^ 62 ≤ flags.length → F .panic := fun h => hpanic (by rwa [Oversized, ← hlen])
  have hfill := fillBlocks_meets hpanic'
  unfold buildCfg
  rw [← hlen]
  refine hfill.bind fun insnToBb hmap => ?_
  let I : ℕ → List BasicBlock → Prop := fun k bbs => bbs.length = k ∧ ∀ i b, bbs[i]? = some b →
    IsBlock insns flags i b ∧ b.reachable = decide (i = 0) ∧
      (i = 0 → b.regStateIn = RegFile.newEntry)
  have hI0 : I 0 [] := ⟨rfl, fun i b h => by cases h⟩
  refine (Meets.foldlM I hI0 ?_).imp fun bbs hbbs => ?_
  · rintro k ⟨s, k'⟩ bbs hx ⟨hlen', hbbs⟩
    obtain ⟨hs, rfl⟩ := getElem?_zipIdx_eq_some.1 hx
    refine (pushBlock_meets hmap hmarks hin hs hpanic).imp fun bbs' h => ?_
    obtain ⟨b, hb, hreach, hstate, rfl⟩ := h
    refine ⟨by simp [hlen'], fun i b' hi => ?_⟩
    rw [List.getElem?_append] at hi
    split_ifs at hi with hlt
    · exact hbbs i b' hi
    · have hi0 : i - bbs.length = 0 := by
        have := (List.getElem?_eq_some_iff.1 hi).1
        simpa using this
      rw [hi0] at hi
      cases hi
      obtain rfl : i = k := by omega
      exact ⟨hb, hreach, hstate⟩
  · refine ⟨⟨by rw [hbbs.1, List.length_zipIdx], fun i b h => (hbbs.2 i b h).1⟩, ?_⟩
    exact fun i b h => (hbbs.2 i b h).2

end Phase1

end NVMirror
