import NVMirror.JitAarch64.Atomics
import NVMirror.JitAarch64.Program
import NVMirror.JitEngine.MemoryNodes
import NVMirror.JitRiscv.Atomics

/-!
# Atomic nodes

What the words of an `Atomic` node do, against `AtomicDone`.

* `Aarch64.AtomicRight`: no word puts the old value into its register, `And` clears bits, 64 bits
  are accessed whatever the width, so that the address has to be aligned for them, and
  compare-and-exchange compares with `X0`, which is eBPF `R1`.
* `Riscv.AtomicRight`: no word puts the old value into its register, 64 bits are accessed whatever
  the width, and compare-and-exchange loses its address.
* `atomic_nodes_iff`: when the words do what the instruction names.
-/

namespace NVMirror

open Rust Bytes

variable {width : MemWidth} {op : AtomicOp} {src : BpfReg} {address : U64}
  {regs : BpfReg → U64} {mem : U64 → U8}

/-! ### AArch64 -/

/-- Where a word and its complement clear the same bits, there are none. -/
theorem and_not_eq_and_iff {w : ℕ} (u v : BitVec w) : u &&& ~~~v = u &&& v ↔ u = 0 := by
  constructor
  · intro h
    refine BitVec.eq_of_getLsbD_eq fun i hi => ?_
    have hbit := congrArg (fun x => BitVec.getLsbD x i) h
    simp only [BitVec.getLsbD_and, BitVec.getLsbD_not, hi, decide_true, Bool.true_and] at hbit
    have hzero : (0 : BitVec w).getLsbD i = false := BitVec.getLsbD_zero
    rw [hzero]
    revert hbit
    cases u.getLsbD i <;> cases v.getLsbD i <;> decide
  · rintro rfl
    simp

namespace Aarch64

/-- When the words of an atomic node are right.  The cell holds `old`; the 64 bits at its address
are `word`. -/
def AtomicRight (width : MemWidth) (op : AtomicOp) (src : BpfReg) (regs : BpfReg → U64)
    (mem : U64 → U8) (address : U64) : Prop :=
  let old := loadLe 64 width.byteLen mem address
  let word := loadLe 64 8 mem address
  isAligned 8 address ∧ HoldsOld op src regs old ∧
    if op = .cmpXchg then regs BpfReg.r1 = word ∧ SameAbove width (regs src) word
    else (op = .and ∨ op = .fetchAnd → old = 0) ∧ SameAbove width (lseNew op word (regs src)) word

/-- Additions to doublewords are. -/
theorem atomicRight_add (src : BpfReg) (regs : BpfReg → U64) (mem : U64 → U8) {address : U64}
    (halign : isAligned 8 address) : AtomicRight .dw .add src regs mem address := by
  refine ⟨halign, fun r hr => absurd hr (Option.some_ne_none r).symm, ?_⟩
  rw [if_neg (by decide)]
  exact ⟨by simp, fun i hge hlt => absurd hge (not_le.2 hlt)⟩

/-- The register of compare-and-exchange is that of eBPF `R1`. -/
theorem xreg_eq_zero_iff : ∀ r, xreg r = 0 ↔ r = BpfReg.r1 := by
  decide

/-- `LDCLR` is right for an old value of 0 only. -/
theorem sameCell_lseNew_iff (hop : op ≠ .cmpXchg) (a s r0 : U64) :
    SameCell width (lseNew op (loadLe 64 8 mem a) s)
        (atomicNew op (loadLe 64 width.byteLen mem a) s r0) ↔
      (op = .and ∨ op = .fetchAnd → loadLe 64 width.byteLen mem a = 0) := by
  have hcell := sameCell_loadLe width mem a
  by_cases hand : op = .and ∨ op = .fetchAnd
  · have hlen := width.byteLen_le
    have hnew : lseNew op (loadLe 64 8 mem a) s = loadLe 64 8 mem a &&& ~~~s := by
      rcases hand with rfl | rfl <;> rfl
    have hspec : atomicNew op (loadLe 64 width.byteLen mem a) s r0 =
        loadLe 64 width.byteLen mem a &&& s := by
      rcases hand with rfl | rfl <;> rfl
    have hzero : loadLe 64 width.byteLen mem a = 0 ↔
        (loadLe 64 width.byteLen mem a).setWidth (8 * width.byteLen) = 0 := by
      have hwidth : (0 : U64).setWidth (8 * width.byteLen) = 0 := by simp
      rw [loadLe_eq_zero_iff, sameCell_iff, hwidth]
    rw [sameCell_iff] at hcell
    rw [hnew, hspec, sameCell_iff, BitVec.setWidth_and, BitVec.setWidth_and,
      BitVec.setWidth_not (by omega), ← hcell, and_not_eq_and_iff, ← hzero]
    exact ⟨fun h _ => h, fun h => h hand⟩
  · have hnew : lseNew op (loadLe 64 8 mem a) s = atomicNew op (loadLe 64 8 mem a) s r0 := by
      cases op with
      | and | fetchAnd => exact absurd (by simp) hand
      | cmpXchg => exact absurd rfl hop
      | _ => rfl
    rw [hnew]
    refine iff_of_true ?_ fun h => absurd h hand
    exact fun i hi => (sameCell_atomicNew hop hcell s r0 i hi).symm

/-- Compare-and-exchange: `CAS` writes the doubleword to the register of `R1`. -/
theorem exchangeNode_iff (width : MemWidth) (base src : BpfReg) (off : I16) (c : Cpu)
    (halign : isAligned 8 (c.x (xreg base) + off.signExtend 64)) :
    let regs r := c.x (xreg r)
    let address := regs base + off.signExtend 64
    (∃ c', Full.Runs (emitAtomicNode .cmpXchg (physOf (xreg base)) (physOf (xreg src)) off) c c' ∧
      AtomicDone width .cmpXchg src address regs (fun r => c'.x (xreg r)) c.mem c'.mem) ↔
        AtomicRight width .cmpXchg src regs c.mem address := by
  intro regs address
  obtain ⟨hbase9, -, -, -, hbase⟩ := xreg_free base
  obtain ⟨hs9, -, -, -, hs⟩ := xreg_free src
  obtain ⟨c', hruns, hmem, hkeep⟩ := runs_cas hbase hbase9 off c halign hs hs9
  have hregs : ∀ r, c'.x (xreg r) =
      if r = BpfReg.r1 then loadLe 64 8 c.mem address else regs r := by
    intro r
    rw [hkeep _ (xreg_free r).1]
    exact if_congr (xreg_eq_zero_iff r) rfl rfl
  have hdone : regs BpfReg.r1 = loadLe 64 8 c.mem address →
      (AtomicDone width .cmpXchg src address regs (fun r => c'.x (xreg r)) c.mem c'.mem ↔
        HoldsOld .cmpXchg src regs (loadLe 64 width.byteLen c.mem address) ∧
          SameAbove width (regs src) (loadLe 64 8 c.mem address)) := by
    intro hr1
    have hsame : (fun r => c'.x (xreg r)) = regs := by
      funext r
      rw [hregs]
      split_ifs with hr
      · rw [hr, hr1]
      · rfl
    have hstore : c'.mem = storeLe 8 c.mem address (regs src) := hmem.trans (if_pos hr1.symm)
    rw [hstore, hsame]
    exact atomicDone_cmpXchg_iff width src address regs c.mem
  unfold AtomicRight
  dsimp only
  rw [and_iff_right halign, if_pos rfl]
  constructor
  · rintro ⟨c₂, hruns₂, h⟩
    obtain rfl := hruns.unique hruns₂
    -- eBPF `R1` has to be left alone
    have hr1 : regs BpfReg.r1 = loadLe 64 8 c.mem address := by
      have hat : c'.x (xreg BpfReg.r1) = regs BpfReg.r1 := h.registers BpfReg.r1
      rw [← hat, hregs, if_pos rfl]
    obtain ⟨hold, habove⟩ := (hdone hr1).1 h
    exact ⟨hold, hr1, habove⟩
  · rintro ⟨hold, hr1, habove⟩
    exact ⟨c', hruns, (hdone hr1).2 ⟨hold, habove⟩⟩

/-- **AArch64.** -/
theorem atomicNode_iff (width : MemWidth) (op : AtomicOp) (base src : BpfReg) (off : I16)
    (c : Cpu) :
    let regs r := c.x (xreg r)
    let address := regs base + off.signExtend 64
    (∃ c', Full.Runs (emitAtomicNode op (physOf (xreg base)) (physOf (xreg src)) off) c c' ∧
      AtomicDone width op src address regs (fun r => c'.x (xreg r)) c.mem c'.mem) ↔
        AtomicRight width op src regs c.mem address := by
  intro regs address
  obtain ⟨hbase9, -, -, -, hbase⟩ := xreg_free base
  obtain ⟨hs9, -, -, -, hs⟩ := xreg_free src
  by_cases halign : isAligned 8 address
  swap
  · refine iff_of_false ?_ fun h => halign h.1
    rintro ⟨c', hruns, -⟩
    exact not_runs_atomic hbase hbase9 off c (Bool.eq_false_iff.2 halign) op c' hruns
  by_cases hop : op = .cmpXchg
  · subst hop
    exact exchangeNode_iff width base src off c halign
  · obtain ⟨c', hruns, hmem, hkeep⟩ := runs_atomic hbase hbase9 off c halign hop hs hs9
    have hregs : (fun r => c'.x (xreg r)) = regs := funext fun r => hkeep _ (xreg_free r).1
    have hdone : AtomicDone width op src address regs (fun r => c'.x (xreg r)) c.mem c'.mem ↔
        (op = .and ∨ op = .fetchAnd → loadLe 64 width.byteLen c.mem address = 0) ∧
          SameAbove width (lseNew op (loadLe 64 8 c.mem address) (regs src))
            (loadLe 64 8 c.mem address) ∧
          HoldsOld op src regs (loadLe 64 width.byteLen c.mem address) := by
      rw [hregs, hmem, ← holdsOld_iff, ← sameCell_lseNew_iff hop]
      exact atomicDone_store_iff _
    unfold AtomicRight
    dsimp only
    rw [and_iff_right halign, if_neg hop]
    constructor
    · rintro ⟨c₂, hruns₂, h⟩
      obtain rfl := hruns.unique hruns₂
      obtain ⟨hand, habove, hold⟩ := hdone.1 h
      exact ⟨hold, hand, habove⟩
    · rintro ⟨hold, hand, habove⟩
      exact ⟨c', hruns, hdone.2 ⟨hand, habove, hold⟩⟩

end Aarch64

/-! ### RISC-V -/

namespace Riscv

/-- When the words of an atomic node are right.  The cell holds `old`; the 64 bits at its address
are `word`. -/
def AtomicRight (width : MemWidth) (op : AtomicOp) (src : BpfReg) (regs : BpfReg → U64)
    (mem : U64 → U8) (address : U64) : Prop :=
  let old := loadLe 64 width.byteLen mem address
  let word := loadLe 64 8 mem address
  let r0 := regs BpfReg.r0
  isAligned 8 address ∧ HoldsOld op src regs old ∧
    if op = .cmpXchg then
      if word = r0 then r0 = address ∧ SameAbove width (regs src) word
      else SameCell width (regs src) word
    else SameAbove width (atomicNew op word (regs src) r0) word

/-- Additions to doublewords are. -/
theorem atomicRight_add (src : BpfReg) (regs : BpfReg → U64) (mem : U64 → U8) {address : U64}
    (halign : isAligned 8 address) : AtomicRight .dw .add src regs mem address := by
  refine ⟨halign, fun r hr => absurd hr (Option.some_ne_none r).symm, ?_⟩
  rw [if_neg (by decide)]
  exact fun i hge hlt => absurd hge (not_le.2 hlt)

/-- Compare-and-exchange: the value that is loaded is where the store goes. -/
theorem exchangeMem_iff (width : MemWidth) (src : BpfReg) (address : U64) (c : Cpu) :
    let regs r := c.x (xreg r)
    let word := loadLe 64 8 c.mem address
    (∃ mem, exchangeMem c address (regs src) = some mem ∧
      AtomicDone width .cmpXchg src address regs regs c.mem mem) ↔
        HoldsOld .cmpXchg src regs (loadLe 64 width.byteLen c.mem address) ∧
          if word = regs BpfReg.r0 then
            regs BpfReg.r0 = address ∧ SameAbove width (regs src) word
          else SameCell width (regs src) word := by
  intro regs word
  have hr0 : c.x 10 = regs BpfReg.r0 := rfl
  by_cases hword : word = regs BpfReg.r0
  · rw [exchangeMem_of_eq hword, hr0, if_pos hword]
    by_cases haddress : regs BpfReg.r0 = address
    · rw [if_pos haddress, and_iff_right haddress, ← atomicDone_cmpXchg_iff]
      simp
    · rw [if_neg haddress]
      refine iff_of_false ?_ fun h => haddress h.2.1
      rintro ⟨mem, hmem, -⟩
      cases hmem
  · rw [exchangeMem_of_ne hword, if_neg hword, ← atomicDone_cmpXchg_self_iff]
    simp

/-- **RISC-V.** -/
theorem atomicNode_iff (width : MemWidth) (op : AtomicOp) (base src : BpfReg) {off : I16}
    (hoff : OffsetFits off) (c : Cpu) :
    let regs r := c.x (xreg r)
    let address := regs base + off.signExtend 64
    (∃ c', RunsTo (atomicWords op (physOf (xreg base)) (physOf (xreg src)) off) c c' ∧
      AtomicDone width op src address regs (fun r => c'.x (xreg r)) c.mem c'.mem) ↔
        AtomicRight width op src regs c.mem address := by
  intro regs address
  have haddress : atomicAddress c (xreg base) off = address :=
    congrArg (regs base + ·) ((field_eq_offset_iff off).2 hoff)
  have hruns : (∃ c', RunsTo (atomicWords op (physOf (xreg base)) (physOf (xreg src)) off) c c' ∧
      AtomicDone width op src address regs (fun r => c'.x (xreg r)) c.mem c'.mem) ↔
        ∃ mem, atomicMem op c address (regs src) = some mem ∧
          AtomicDone width op src address regs regs c.mem mem := by
    have hbase := xreg_ne_zero base
    have hs := xreg_ne_zero src
    have hs23 := xreg_ne_scratch src
    cases hmem : atomicMem op c address (regs src) with
    | none =>
      rw [← haddress] at hmem
      refine iff_of_false ?_ ?_
      · rintro ⟨c', hruns, -⟩
        exact (traps_atomic op hbase hs hs23 off hmem).not_runsTo c' hruns
      · rintro ⟨mem, hsome, -⟩
        cases hsome
    | some mem =>
      rw [← haddress] at hmem
      obtain ⟨c', hruns, rfl, hkeep⟩ := runsTo_atomic op hbase hs hs23 off hmem
      have hregs : (fun r => c'.x (xreg r)) = regs := funext fun r => hkeep _ (xreg_ne_scratch r)
      constructor
      · rintro ⟨c₂, hruns₂, h⟩
        obtain rfl := hruns.unique hruns₂
        rw [hregs] at h
        exact ⟨_, rfl, h⟩
      · rintro ⟨mem, hsome, h⟩
        obtain rfl := Option.some.inj hsome
        refine ⟨c', hruns, ?_⟩
        rw [hregs]
        exact h
  rw [hruns]
  unfold AtomicRight atomicMem
  dsimp only
  by_cases halign : isAligned 8 address
  swap
  · rw [if_neg halign]
    refine iff_of_false ?_ fun h => halign h.1
    rintro ⟨mem, hmem, -⟩
    cases hmem
  rw [if_pos halign, and_iff_right halign]
  by_cases hop : op = .cmpXchg
  · subst hop
    exact exchangeMem_iff width src address c
  · have hmem : ∀ mem, some (storeLe 8 c.mem address
        (atomicNew op (c.load64 address) (regs src) (c.x 10))) = some mem ↔
          storeLe 8 c.mem address
            (atomicNew op (c.load64 address) (regs src) (regs BpfReg.r0)) = mem :=
      fun mem => Option.some_inj
    rw [if_neg hop, if_neg hop]
    simp only [hmem, exists_eq_left']
    rw [atomicDone_store_iff, holdsOld_iff]
    have hcell : SameCell width (atomicNew op (c.load64 address) (regs src) (regs BpfReg.r0))
        (atomicNew op (loadLe 64 width.byteLen c.mem address) (regs src) (regs BpfReg.r0)) :=
      fun i hi => (sameCell_atomicNew hop (sameCell_loadLe width c.mem address) _ _ i hi).symm
    constructor
    · rintro ⟨-, habove, hold⟩
      exact ⟨hold, habove⟩
    · rintro ⟨hold, habove⟩
      exact ⟨hcell, habove, hold⟩

end Riscv

/-! ### Both emitters -/

/-- **Atomic nodes** do what they name under these conditions. -/
theorem atomic_nodes_iff [Profile] (width : MemWidth) (op : AtomicOp) (base src : BpfReg)
    {off : I16} (hoff : Riscv.OffsetFits off) :
    (∃ ws, (∀ e, Aarch64.emitNode e (.atomic width op (aarch64Regmap.phys base)
        (aarch64Regmap.phys src) off) = .ok (e.append ws none)) ∧
      ∀ c : Aarch64.Cpu,
        let regs r := c.x (Aarch64.xreg r)
        let address := regs base + off.signExtend 64
        (∃ c', Aarch64.Full.Runs ws c c' ∧
          AtomicDone width op src address regs (fun r => c'.x (Aarch64.xreg r)) c.mem c'.mem) ↔
            Aarch64.AtomicRight width op src regs c.mem address) ∧
    (∃ ws, (∀ e, e.buf.length < 2 ^ 30 → Riscv.emitNode e (.atomic width op
        (riscv64Regmap.phys base) (riscv64Regmap.phys src) off) = .ok (e.append ws none)) ∧
      (∀ e e', Riscv.emitNode e (.atomic width op (riscv64Regmap.phys base)
        (riscv64Regmap.phys src) off) = .ok e' → e' = e.append ws none) ∧
      ∀ c : Riscv.Cpu,
        let regs r := c.x (Riscv.xreg r)
        let address := regs base + off.signExtend 64
        (∃ c', Riscv.RunsTo ws c c' ∧
          AtomicDone width op src address regs (fun r => c'.x (Riscv.xreg r)) c.mem c'.mem) ↔
            Riscv.AtomicRight width op src regs c.mem address) := by
  rw [Aarch64.phys_eq, Aarch64.phys_eq, Riscv.phys_eq, Riscv.phys_eq]
  constructor
  · refine ⟨_, fun e => ?_, fun c => Aarch64.atomicNode_iff width op base src off c⟩
    exact congrArg Except.ok (Emitter.emitWords_eq e _)
  · exact ⟨_, fun e he => Riscv.emitAtomicNode_eq op _ _ off he,
      fun e e' h => Riscv.emitAtomicNode_of_ok h,
      fun c => Riscv.atomicNode_iff width op base src hoff c⟩

/-- An addition of 3 to a doubleword at address 8, on both machines. -/
theorem atomic_nodes_add :
    let values r : U64 := if r = BpfReg.r2 then 16 else 3
    let mem : U64 → U8 := fun a => if a = 8 then 5 else 0
    let cpu : Aarch64.Cpu := ⟨fun r => if r = 1 then 16 else 3, ⟨false, false, false, false⟩, mem⟩
    let cpu' : Riscv.Cpu := ⟨fun r => if r = 12 then 16 else 3, mem, none⟩
    (∃ ws c', @Aarch64.emitNode debug .new (.atomic .dw .add (aarch64Regmap.phys BpfReg.r2)
        (aarch64Regmap.phys BpfReg.r1) (-8)) = .ok (Emitter.new.append ws none) ∧
      Aarch64.Full.Runs ws cpu c' ∧ loadLe 64 8 c'.mem 8 = 8 ∧
      AtomicDone .dw .add BpfReg.r1 8 values (fun r => c'.x (Aarch64.xreg r)) mem c'.mem) ∧
    ∃ ws c', @Riscv.emitNode debug .new (.atomic .dw .add (riscv64Regmap.phys BpfReg.r2)
        (riscv64Regmap.phys BpfReg.r1) (-8)) = .ok (Emitter.new.append ws none) ∧
      Riscv.RunsTo ws cpu' c' ∧ loadLe 64 8 c'.mem 8 = 8 ∧
      AtomicDone .dw .add BpfReg.r1 8 values (fun r => c'.x (Riscv.xreg r)) mem c'.mem := by
  intro values mem cpu cpu'
  obtain ⟨⟨ws, hemit, h⟩, ⟨ws', hemit', -, h'⟩⟩ :=
    @atomic_nodes_iff debug .dw .add BpfReg.r2 BpfReg.r1 (-8) ⟨by decide, by decide⟩
  have hvalues : (fun r => cpu.x (Aarch64.xreg r)) = values := by
    funext r
    revert r
    decide
  have hvalues' : (fun r => cpu'.x (Riscv.xreg r)) = values := by
    funext r
    revert r
    decide
  have haddress : (16 : U64) + (-8 : I16).signExtend 64 = 8 := by decide
  have hnew : ∀ {regs' : BpfReg → U64} {mem' : U64 → U8},
      AtomicDone .dw .add BpfReg.r1 8 values regs' mem mem' → loadLe 64 8 mem' 8 = (8 : U64) := by
    intro regs' mem' hdone
    rw [hdone.memory]
    decide
  obtain ⟨c', hruns, hdone⟩ := (h cpu).2 (Aarch64.atomicRight_add _ _ _ (by decide))
  obtain ⟨c'', hruns', hdone'⟩ := (h' cpu').2 (Riscv.atomicRight_add _ _ _ (by decide))
  rw [hvalues] at hdone
  rw [hvalues'] at hdone'
  have hdone₈ : AtomicDone .dw .add BpfReg.r1 8 values _ mem c'.mem := haddress ▸ hdone
  have hdone₈' : AtomicDone .dw .add BpfReg.r1 8 values _ mem c''.mem := haddress ▸ hdone'
  exact ⟨⟨ws, c', hemit .new, hruns, hnew hdone₈, hdone₈⟩,
    ⟨ws', c'', hemit' .new (by decide), hruns', hnew hdone₈', hdone₈'⟩⟩

/-- The old value of a fetched addition is nowhere. -/
theorem atomic_nodes_fetchAdd :
    let cpu : Aarch64.Cpu := ⟨fun _ => 8, ⟨false, false, false, false⟩, fun _ => 0⟩
    let cpu' : Riscv.Cpu := ⟨fun _ => 8, fun _ => 0, none⟩
    (¬ ∃ c', Aarch64.Full.Runs (Aarch64.emitAtomicNode .fetchAdd (aarch64Regmap.phys BpfReg.r2)
        (aarch64Regmap.phys BpfReg.r1) 0) cpu c' ∧ AtomicDone .dw .fetchAdd BpfReg.r1 8
          (fun _ => 8) (fun r => c'.x (Aarch64.xreg r)) (fun _ => 0) c'.mem) ∧
    ¬ ∃ c', Riscv.RunsTo (Riscv.atomicWords .fetchAdd (riscv64Regmap.phys BpfReg.r2)
        (riscv64Regmap.phys BpfReg.r1) 0) cpu' c' ∧ AtomicDone .dw .fetchAdd BpfReg.r1 8
          (fun _ => 8) (fun r => c'.x (Riscv.xreg r)) (fun _ => 0) c'.mem := by
  intro cpu cpu'
  have hold : ¬ HoldsOld .fetchAdd BpfReg.r1 (fun _ => 8) (loadLe 64 8 (fun _ => 0) 8) := fun h =>
    absurd (h BpfReg.r1 rfl) (by decide)
  rw [Aarch64.phys_eq, Aarch64.phys_eq, Riscv.phys_eq, Riscv.phys_eq]
  constructor
  · intro h
    exact hold ((Aarch64.atomicNode_iff .dw .fetchAdd BpfReg.r2 BpfReg.r1 0 cpu).1 h).2.1
  · intro h
    have hoff : Riscv.OffsetFits 0 := ⟨by decide, by decide⟩
    exact hold ((Riscv.atomicNode_iff .dw .fetchAdd BpfReg.r2 BpfReg.r1 hoff cpu').1 h).2.1

end NVMirror
