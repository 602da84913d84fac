import NVMirror.JitAarch64.Alu
import NVMirror.JitAarch64.FullRuns
import NVMirror.JitEngine.Atomics

/-!
# Atomic operations on AArch64

* `lseNew`: what the one instruction between the barriers leaves in memory.  `And` is emitted as
  `LDCLR`, which clears the bits of its operand.
* `runs_atomic`: all of them but compare-and-exchange change memory and `X9` only.
* `runs_cas`: compare-and-exchange compares with `X0` and puts the old value there; eBPF `R0` is
  `X7`.
* `not_runs_atomic`: at an address that is not aligned, none of them has a result that every
  environment agrees on.
-/

namespace NVMirror.Aarch64

open Rust Bytes

/-- What the instruction leaves of 64 bits that were `old`. -/
def lseNew (op : AtomicOp) (old src : U64) : U64 :=
  match op with
  | .and | .fetchAnd => old &&& ~~~src
  | _ => atomicNew op old src 0

/-- The words that put the address into `X9`. -/
def addressWords (base : Reg) (off : I16) : List U32 :=
  if off ≠ 0 then
    emitLoadImm64 tmp (off.signExtend 64) ++ [addXReg tmp.num (physOf base).num tmp.num]
  else [movXReg tmp.num (physOf base).num]

theorem writes_address {base : Reg} (hbase : base ≠ 31) (hbase9 : base ≠ 9) (off : I16) (c : Cpu) :
    Writes (addressWords base off) {9} c 9 (c.x base + off.signExtend 64) := by
  unfold addressWords
  split_ifs with hoff
  · refine Writes.append (writes_loadImm64 (d := 9) (by decide) _ c) subset_rfl
      fun c₁ h₁ hsame => ?_
    have hadd : Writes [rrr 0x8B000000 ((9 : Reg).setWidth 8) (base.setWidth 8)
        ((9 : Reg).setWidth 8)] {9} c₁ 9 (DataOp.add.eval (c₁.x base) (c₁.x 9)) :=
      writes_data64 (by decide) (by decide) (by decide) hbase (by decide) c₁
    rw [h₁, hsame.x base hbase9] at hadd
    exact hadd
  · have hmov : Writes [rrr 0xAA000000 ((9 : Reg).setWidth 8) ((31 : Reg).setWidth 8)
        (base.setWidth 8)] {9} c 9
          ((DataOp.orr.eval (c.get true 31) (c.get true base)).setWidth 64) :=
      writes_data (by decide) (by decide) (by decide) 31 base c
    have hval : (DataOp.orr.eval (c.get true 31) (c.get true base)).setWidth 64 =
        c.x base + off.signExtend 64 := by
      rw [not_not.1 hoff, Cpu.get_zero, c.get_true hbase]
      show ((0 : U64) ||| c.x base).setWidth 64 = c.x base + 0
      simp
    rw [hval] at hmov
    exact hmov

/-- The opcode of the instruction, and what it does. -/
theorem runs_lse (fn : Full.AtomicFn) {op : U32} (h : Full.IsAtomic op fn) {s : Reg} (hs : s ≠ 31)
    {c : Cpu} (halign : isAligned 8 (c.x 9)) :
    Full.Runs [rrr op 31 9 (s.setWidth 8)] c
      { c with mem := storeLe 8 c.mem (c.x 9) (fn.eval (c.load64 (c.x 9)) (c.x s)) } := by
  refine Full.Runs.word (Full.decode_atomic h s 31 9) (fun env => ?_) (fun env pc => ?_) rfl
  · dsimp only [Full.Instr.traps]
    rw [halign]
    rfl
  · show c.store64 (c.x 9) (fn.eval (c.load64 (c.x 9)) (c.get true s)) = _
    rw [c.get_true hs]
    rfl

/-- The word between the barriers. -/
theorem runs_atomicWord {op : AtomicOp} (hop : op ≠ .cmpXchg) {s : Reg} (hs : s ≠ 31) {c : Cpu}
    (halign : isAligned 8 (c.x 9)) :
    Full.Runs [atomicWord op (physOf s) tmp] c
      { c with mem := storeLe 8 c.mem (c.x 9) (lseNew op (c.load64 (c.x 9)) (c.x s)) } := by
  cases op with
  | add | fetchAdd => exact runs_lse .add (by decide) hs halign
  | or | fetchOr => exact runs_lse .set (by decide) hs halign
  | and | fetchAnd => exact runs_lse .clr (by decide) hs halign
  | xor | fetchXor => exact runs_lse .eor (by decide) hs halign
  | xchg => exact runs_lse .swp (by decide) hs halign
  | cmpXchg => exact absurd rfl hop

theorem runs_casWord {s : Reg} (hs : s ≠ 31) {c : Cpu} (halign : isAligned 8 (c.x 9)) :
    Full.Runs [atomicWord .cmpXchg (physOf s) tmp] c
      ((if c.load64 (c.x 9) = c.x 0 then c.store64 (c.x 9) (c.x s) else c).set 0
        (c.load64 (c.x 9))) := by
  refine Full.Runs.word (Full.decode_cas 0 s 9) (fun env => ?_) (fun env pc => ?_) rfl
  · dsimp only [Full.Instr.traps]
    rw [halign]
    rfl
  · show (if c.load64 (c.x 9) = c.x 0 then c.store64 (c.x 9) (c.get true s) else c).set 0 _ = _
    rw [c.get_true hs]

/-- It accesses memory at the address in `X9`. -/
theorem decode_atomicWord (op : AtomicOp) (s : Reg) :
    ∃ i, Full.decode (atomicWord op (physOf s) tmp) = some i ∧
      ∀ env c, i.traps env c = !(isAligned 8 (c.x 9) || env.misaligned (c.x 9)) := by
  have hlse : ∀ (fn : Full.AtomicFn) {op : U32}, Full.IsAtomic op fn →
      ∃ i, Full.decode (rrr op 31 9 (s.setWidth 8)) = some i ∧
        ∀ env c, i.traps env c = !(isAligned 8 (c.x 9) || env.misaligned (c.x 9)) :=
    fun fn _ hop => ⟨_, Full.decode_atomic hop s 31 9, fun _ _ => rfl⟩
  cases op with
  | add | fetchAdd => exact hlse .add (by decide)
  | or | fetchOr => exact hlse .set (by decide)
  | and | fetchAnd => exact hlse .clr (by decide)
  | xor | fetchXor => exact hlse .eor (by decide)
  | xchg => exact hlse .swp (by decide)
  | cmpXchg => exact ⟨_, Full.decode_cas 0 s 9, fun _ _ => rfl⟩

section

variable {base s : Reg} (hbase : base ≠ 31) (hbase9 : base ≠ 9) (off : I16) (c : Cpu)

include hbase hbase9

/-- The words before the operation. -/
theorem runs_address : ∃ c₁, c₁.x 9 = c.x base + off.signExtend 64 ∧ SameOutside {9} c c₁ ∧
    Full.Runs (addressWords base off ++ [dmbIsh]) c c₁ := by
  obtain ⟨c₁, hline, haddress, hsame⟩ := writes_address hbase hbase9 off c
  have hbarrier : Full.Runs [dmbIsh] c₁ c₁ :=
    Full.Runs.word (i := .barrier) (by decide) (fun _ => rfl) (fun _ _ => rfl) rfl
  exact ⟨c₁, haddress, hsame, (Full.Runs.line hline).append hbarrier⟩

/-- The address, and a word between two barriers. -/
theorem runs_emitAtomicNode (halign : isAligned 8 (c.x base + off.signExtend 64)) (op : AtomicOp)
    {c' : Cpu → Cpu}
    (h : ∀ c₁ : Cpu, isAligned 8 (c₁.x 9) → Full.Runs [atomicWord op (physOf s) tmp] c₁ (c' c₁)) :
    ∃ c₁, c₁.x 9 = c.x base + off.signExtend 64 ∧ SameOutside {9} c c₁ ∧
      Full.Runs (emitAtomicNode op (physOf base) (physOf s) off) c (c' c₁) := by
  obtain ⟨c₁, haddress, hsame, hruns⟩ := runs_address hbase hbase9 off c
  have hword := h c₁ (haddress ▸ halign)
  have hbarrier : Full.Runs [dmbIsh] (c' c₁) (c' c₁) :=
    Full.Runs.word (i := .barrier) (by decide) (fun _ => rfl) (fun _ _ => rfl) rfl
  have hall := hruns.append (hword.append hbarrier)
  rw [List.append_assoc] at hall
  exact ⟨c₁, haddress, hsame, hall⟩

/-- **An address that is not aligned.** -/
theorem not_runs_atomic (halign : isAligned 8 (c.x base + off.signExtend 64) = false)
    (op : AtomicOp) (c' : Cpu) :
    ¬ Full.Runs (emitAtomicNode op (physOf base) (physOf s) off) c c' := by
  obtain ⟨c₁, haddress, -, hruns⟩ := runs_address hbase hbase9 off c
  obtain ⟨i, hdecode, htraps⟩ := decode_atomicWord op s
  have hfault : i.traps .idle c₁ = true := by
    rw [htraps, haddress, halign]
    rfl
  have hnot := Full.not_runs_of_traps hruns hdecode hfault [dmbIsh] c'
  rw [List.append_assoc] at hnot
  exact hnot

/-- **All atomic operations but compare-and-exchange.** -/
theorem runs_atomic (halign : isAligned 8 (c.x base + off.signExtend 64)) {op : AtomicOp}
    (hop : op ≠ .cmpXchg) (hs : s ≠ 31) (hs9 : s ≠ 9) :
    let a := c.x base + off.signExtend 64
    ∃ c', Full.Runs (emitAtomicNode op (physOf base) (physOf s) off) c c' ∧
      c'.mem = storeLe 8 c.mem a (lseNew op (c.load64 a) (c.x s)) ∧
      ∀ r, r ≠ 9 → c'.x r = c.x r := by
  intro a
  obtain ⟨c₁, haddress, hsame, hruns⟩ := runs_emitAtomicNode hbase hbase9 off c halign op
    fun c₁ halign₁ => runs_atomicWord hop hs halign₁
  refine ⟨_, hruns, ?_, fun r hr => hsame.x r hr⟩
  show storeLe 8 c₁.mem (c₁.x 9) (lseNew op (c₁.load64 (c₁.x 9)) (c₁.x s)) = _
  unfold Cpu.load64
  rw [haddress, hsame.mem, hsame.x s hs9]

/-- **Compare-and-exchange.** -/
theorem runs_cas (halign : isAligned 8 (c.x base + off.signExtend 64)) (hs : s ≠ 31)
    (hs9 : s ≠ 9) :
    let a := c.x base + off.signExtend 64
    ∃ c', Full.Runs (emitAtomicNode .cmpXchg (physOf base) (physOf s) off) c c' ∧
      c'.mem = (if c.load64 a = c.x 0 then storeLe 8 c.mem a (c.x s) else c.mem) ∧
      ∀ r, r ≠ 9 → c'.x r = if r = 0 then c.load64 a else c.x r := by
  intro a
  obtain ⟨c₁, haddress, hsame, hruns⟩ := runs_emitAtomicNode hbase hbase9 off c halign .cmpXchg
    fun c₁ halign₁ => runs_casWord hs halign₁
  have ha : c₁.x 9 = a := haddress
  have hload : c₁.load64 (c₁.x 9) = c.load64 a := by
    unfold Cpu.load64
    rw [haddress, hsame.mem]
  have hmem : ∀ P [Decidable P], (if P then c₁.store64 (c₁.x 9) (c₁.x s) else c₁).mem =
      if P then storeLe 8 c.mem a (c.x s) else c.mem := by
    intro P _
    rw [apply_ite Cpu.mem, ← hsame.mem, ← hsame.x s hs9, ← ha]
    rfl
  have hx : ∀ P [Decidable P], (if P then c₁.store64 (c₁.x 9) (c₁.x s) else c₁).x = c₁.x := by
    intro P _
    split_ifs <;> rfl
  refine ⟨_, hruns, ?_, fun r hr => ?_⟩
  · rw [Cpu.set_mem, hmem, hload, hsame.x 0 (by decide)]
  · by_cases h0 : r = 0
    · rw [if_pos h0, h0, Cpu.set_x_self _ _ (by decide), hload]
    · rw [if_neg h0, Cpu.set_x_of_ne _ _ h0, hx, hsame.x r hr]

end

end NVMirror.Aarch64
