import NVMirror.JitRegalloc.Layout

/-!
# The computed frame size

* `FrameOf insns f`: what the frame size `f` says about the accesses through `R10` and about the
  instructions that need a frame.
* `frameSizeOf_frameOf`: the lowering computes such a frame size.
* `FrameOf.eq_512_iff`: the largest frame belongs to accesses below `R10 - 496`.
-/

namespace NVMirror

open Rust

variable {insns : List Insn}

/-- How the frame size and the program belong together. -/
structure FrameOf (insns : List Insn) (f : U16) : Prop extends FrameSize f where
  /-- Every access through `R10` starts within `f` bytes below it. -/
  covers : ∀ insn ∈ insns, ∀ o, stackOff insn = some o → -o.toInt ≤ f.toNat
  /-- There is no frame exactly if no instruction needs one. -/
  eq_zero_iff : f = 0 ↔ ∀ insn ∈ insns, stackOff insn = none ∧ needsFrame insn = false
  /-- A frame larger than the smallest one is there for some access. -/
  tight : 64 < f.toNat → ∃ insn ∈ insns, ∃ o, stackOff insn = some o ∧
    (f.toNat : ℤ) < -o.toInt + 16

/-- The deepest access of the instructions before `k`, and whether one of them needs a frame. -/
structure FrameScan (insns : List Insn) (k : ℕ) (acc : U16 × Bool) : Prop where
  le : acc.1.toNat ≤ 512
  covers : ∀ i < k, ∀ insn, insns[i]? = some insn → ∀ o, stackOff insn = some o →
    -o.toInt ≤ acc.1.toNat ∧ acc.2 = true
  needs : ∀ i < k, ∀ insn, insns[i]? = some insn → needsFrame insn = true → acc.2 = true
  zero : acc.2 = false → acc.1 = 0
  needed : acc.2 = true → ∃ insn ∈ insns, stackOff insn ≠ none ∨ needsFrame insn = true
  tight : acc.1 ≠ 0 → ∃ insn ∈ insns, ∃ o, stackOff insn = some o ∧ -o.toInt = acc.1.toNat

/-- Accesses and needs of one more instruction. -/
theorem FrameScan.succ {k : ℕ} {insn : Insn} {acc acc' : U16 × Bool}
    (h : FrameScan insns k acc) (hk : insns[k]? = some insn)
    (hle : acc'.1.toNat ≤ 512) (hfirst : acc.1.toNat ≤ acc'.1.toNat)
    (hsecond : acc.2 = true → acc'.2 = true)
    (hcovers : ∀ o, stackOff insn = some o → -o.toInt ≤ acc'.1.toNat ∧ acc'.2 = true)
    (hneeds : needsFrame insn = true → acc'.2 = true) (hzero : acc'.2 = false → acc'.1 = 0)
    (hneeded : acc'.2 = true → acc.2 = true ∨ stackOff insn ≠ none ∨ needsFrame insn = true)
    (htight : acc'.1 ≠ acc.1 → ∃ o, stackOff insn = some o ∧ -o.toInt = acc'.1.toNat) :
    FrameScan insns (k + 1) acc' := by
  have hlast : ∀ {i : ℕ} {insn' : Insn}, i < k + 1 → ¬ i < k → insns[i]? = some insn' →
      insn' = insn := by
    intro i insn' hi hik hget
    obtain rfl : i = k := by omega
    exact Option.some.inj (hget.symm.trans hk)
  refine ⟨hle, fun i hi insn' hget o ho => ?_, fun i hi insn' hget hn => ?_, hzero, fun hn => ?_,
    fun hne => ?_⟩
  · by_cases hik : i < k
    · obtain ⟨h1, h2⟩ := h.covers i hik insn' hget o ho
      exact ⟨by omega, hsecond h2⟩
    · obtain rfl := hlast hi hik hget
      exact hcovers o ho
  · by_cases hik : i < k
    · exact hsecond (h.needs i hik insn' hget hn)
    · obtain rfl := hlast hi hik hget
      exact hneeds hn
  · rcases hneeded hn with hold | hnew
    · exact h.needed hold
    · exact ⟨insn, List.mem_of_getElem? hk, hnew⟩
  · by_cases heq : acc'.1 = acc.1
    · rw [heq] at hne ⊢
      exact h.tight hne
    · obtain ⟨o, ho, hval⟩ := htight heq
      exact ⟨insn, List.mem_of_getElem? hk, o, ho, hval⟩

section

variable [Profile]

theorem frameStep_scan (hacc : Accepted insns) {k : ℕ} {insn : Insn} {acc : U16 × Bool}
    (hk : insns[k]? = some insn) (h : FrameScan insns k acc) :
    Meets (frameStep acc insn) (FrameScan insns (k + 1)) (fun _ => False) := by
  obtain ⟨f, needs⟩ := acc
  have hle := h.le
  have hzero := h.zero
  dsimp only at hle hzero
  dsimp only [frameStep]
  cases ho : stackOff insn with
  | none =>
    refine Meets.ok (h.succ hk hle le_rfl (fun hn => ?_) (fun o ho' => ?_) (fun hn => ?_)
      (fun hn => ?_) (fun hn => ?_) (fun hne => absurd rfl hne))
    · exact Bool.or_eq_true_iff.2 (Or.inl hn)
    · rw [ho] at ho'
      cases ho'
    · exact Bool.or_eq_true_iff.2 (Or.inr hn)
    · exact hzero (Bool.or_eq_false_iff.1 hn).1
    · exact (Bool.or_eq_true_iff.1 hn).imp_right Or.inr
  | some o =>
    obtain ⟨A, hA⟩ := hacc.certificate
    obtain ⟨width, hmem⟩ := stackOff_eq_some ho
    obtain ⟨hlow, hneg⟩ := (hA k insn hk).stack o width hmem
    obtain ⟨needed, hn, hval⟩ := negS_of_stack (ε := Empty) hlow hneg
    unfold stackSize at hlow
    dsimp only
    rw [hn, ok_bind]
    have hmax : (if f < needed then needed else f).toNat = max f.toNat needed.toNat := by
      by_cases hlt : f < needed
      · rw [if_pos hlt, max_eq_right (BitVec.le_of_lt hlt)]
      · rw [if_neg hlt, max_eq_left (BitVec.not_lt.1 hlt)]
    refine Meets.ok (h.succ hk ?_ ?_ (fun _ => rfl) (fun o' ho' => ⟨?_, rfl⟩) (fun _ => rfl)
      (fun hn => by cases hn) (fun _ => Or.inr (Or.inl ?_)) (fun hne => ⟨o, ho, ?_⟩))
    · dsimp only
      rw [hmax]
      omega
    · dsimp only
      rw [hmax]
      omega
    · rw [ho] at ho'
      cases ho'
      dsimp only
      rw [hmax]
      omega
    · rw [ho]
      exact Option.some_ne_none o
    · dsimp only at hne ⊢
      split_ifs at hne ⊢ with hlt
      · exact hval.symm
      · exact absurd rfl hne

omit [Profile] in
/-- No instruction needs a frame, if the scan says so. -/
theorem FrameScan.eq_false_iff {acc : U16 × Bool} (h : FrameScan insns insns.length acc) :
    acc.2 = false ↔ ∀ insn ∈ insns, stackOff insn = none ∧ needsFrame insn = false := by
  refine ⟨fun hneeds insn hmem => ?_, fun hnone => ?_⟩
  · obtain ⟨i, hget⟩ := List.getElem?_of_mem hmem
    have hi := (List.getElem?_eq_some_iff.1 hget).1
    refine ⟨?_, ?_⟩
    · cases ho : stackOff insn with
      | none => rfl
      | some o => exact absurd (h.covers i hi insn hget o ho).2 (by simp [hneeds])
    · cases hn : needsFrame insn with
      | false => rfl
      | true => exact absurd (h.needs i hi insn hget hn) (by simp [hneeds])
  · by_contra hn
    obtain ⟨insn, hmem, hno⟩ := h.needed (by simpa using hn)
    obtain ⟨h1, h2⟩ := hnone insn hmem
    rcases hno with hno | hno
    · exact hno h1
    · rw [h2] at hno
      cases hno

omit [Profile] in
/-- A frame that is needed has at least 64 bytes. -/
theorem frameFloor_bounds {f : U16} (needs : Bool) (hle : f.toNat ≤ 512) {g : U16}
    (hg : (if needs && f < 64 then (64 : U16) else f) = g) :
    f.toNat ≤ g.toNat ∧ g.toNat ≤ 512 ∧ (needs = true → g ≠ 0) ∧ (64 < g.toNat → g = f) := by
  cases needs with
  | false =>
    rw [Bool.false_and, if_neg Bool.false_ne_true] at hg
    subst hg
    exact ⟨le_rfl, hle, fun h => absurd h Bool.false_ne_true, fun _ => rfl⟩
  | true =>
    rw [Bool.true_and] at hg
    by_cases hlt : f < 64
    · rw [if_pos (decide_eq_true hlt)] at hg
      subst hg
      have hlt' : f.toNat < 64 := hlt
      exact ⟨hlt'.le, by decide, fun _ => by decide, fun h => by simp at h⟩
    · rw [if_neg (by rw [decide_eq_false hlt]; exact Bool.false_ne_true)] at hg
      subst hg
      have hge : 64 ≤ f.toNat := BitVec.not_lt.1 hlt
      refine ⟨le_rfl, hle, fun _ h0 => ?_, fun _ => rfl⟩
      rw [h0] at hge
      exact absurd hge (by decide)

/-- **The frame size** and the program belong together. -/
theorem frameSizeOf_frameOf (hacc : Accepted insns) :
    Meets (frameSizeOf insns) (FrameOf insns) (fun _ => False) := by
  have hstart : FrameScan insns 0 (0, false) :=
    ⟨by simp, fun i hi => by omega, fun i hi => by omega, fun _ => rfl, fun h => by simp at h,
      fun h => absurd rfl h⟩
  refine (Meets.foldlM (FrameScan insns) hstart fun k insn acc hk h =>
    frameStep_scan hacc hk h).bind fun acc hscan => ?_
  obtain ⟨f, needs⟩ := acc
  have hle := hscan.le
  have hzero := hscan.zero
  have hnone := hscan.eq_false_iff
  dsimp only at hle hzero hnone ⊢
  have hsize : FrameSize (((if needs && f < 64 then 64 else f) + 15) &&& ~~~(15 : U16)) :=
    frameSize_round hle hzero
  generalize hg : (if needs && f < 64 then (64 : U16) else f) = g at hsize ⊢
  -- `g` is the size before rounding
  obtain ⟨hfg, hg512, hgne, hgeq⟩ := frameFloor_bounds needs hle hg
  have hadd : (g + 15).toNat = g.toNat + 15 := by
    rw [BitVec.toNat_add]
    simp
    omega
  have hover : BitVec.uaddOverflow g 15 = false := by
    simp [BitVec.uaddOverflow]
    omega
  have hround := toNat_and_not_15 (g + 15)
  rw [hadd] at hround
  rw [addU, overflowing_of_not hover, ok_bind]
  refine Meets.ok ⟨hsize, fun insn hmem o ho => ?_, ⟨fun h0 => hnone.1 ?_, fun h0 => ?_⟩,
    fun hbig => ?_⟩
  · obtain ⟨i, hget⟩ := List.getElem?_of_mem hmem
    have h1 := (hscan.covers i (List.getElem?_eq_some_iff.1 hget).1 insn hget o ho).1
    dsimp only at h1
    omega
  · by_contra hneeds
    have h0' := congrArg BitVec.toNat h0
    rw [hround] at h0'
    refine hgne (by simpa using hneeds) (BitVec.eq_of_toNat_eq ?_)
    simp at h0' ⊢
    omega
  · have hneeds := hnone.2 h0
    rw [hneeds, Bool.false_and, if_neg Bool.false_ne_true, hzero hneeds] at hg
    rw [← hg]
    rfl
  · rw [hround] at hbig ⊢
    obtain rfl := hgeq (by omega)
    have hne : g ≠ 0 := by
      rintro rfl
      simp at hbig
    obtain ⟨insn, hmem, o, ho, hval⟩ := hscan.tight hne
    dsimp only at hval
    exact ⟨insn, hmem, o, ho, by omega⟩

/-- The frame size of the lowered program. -/
theorem lowerToIr_frameOf (hacc : Accepted insns) {regmap : RegMap} {ir : IrProgram}
    (h : lowerToIr insns regmap = .ok ir) : FrameOf insns ir.frameSize := by
  obtain ⟨isLeader, -, h⟩ := bind_eq_ok.1 h
  obtain ⟨pcToBb, -, h⟩ := bind_eq_ok.1 h
  obtain ⟨frameSize, hframe, h⟩ := bind_eq_ok.1 h
  obtain ⟨st, -, h⟩ := bind_eq_ok.1 h
  cases h
  exact (frameSizeOf_frameOf hacc).of_ok hframe

end

/-- The largest frame belongs to accesses deeper than 496 bytes. -/
theorem FrameOf.eq_512_iff {f : U16} (h : FrameOf insns f) :
    f = 512 ↔ ∃ insn ∈ insns, ∃ o, stackOff insn = some o ∧ o.toInt < -496 := by
  constructor
  · rintro rfl
    obtain ⟨insn, hmem, o, ho, hlt⟩ := h.tight (by decide)
    have h512 : ((512 : U16).toNat : ℤ) = 512 := rfl
    exact ⟨insn, hmem, o, ho, by omega⟩
  · rintro ⟨insn, hmem, o, ho, hlt⟩
    have hcovers := h.covers insn hmem o ho
    have hle := h.le
    obtain ⟨m, hm⟩ := h.dvd
    refine BitVec.eq_of_toNat_eq ?_
    show f.toNat = 512
    omega

end NVMirror
