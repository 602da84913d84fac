import NVMirror.JitAarch64.Branch
import NVMirror.JitAarch64.Frame
import NVMirror.JitIr.Image
import NVMirror.JitRegalloc.Preservation

/-!
# Programs on the machine

The finished code of a lowered program whose nodes work on registers (`OnRegisters`), run by a
machine, simulates the lowered program.

* `steps_straight`, `steps_branch`: the machine runs through the words of one node.
* `Matches`: the machine is at the words of the next node and its registers hold those of the
  program.  Behind an epilogue only `R0` still counts.
* `simulates`: one node of the program is one or more instructions of the machine.

The link register has its first value throughout; an epilogue loads it from the frame.
-/

namespace NVMirror.Aarch64

open Rust Bytes

/-! ### The words of one node -/

/-- Behind the code the machine stays where it is. -/
theorem step_of_fetch_none {code : List U8} {m : Machine} (h : fetchU32 code m.pc = none) :
    step code m = .ok m := by
  unfold step
  rw [h]
  rfl

variable {ir : IrProgram} {W : IrNode → List U32} {ws : List U32} {j : ℕ} {node : IrNode}

/-- The first words of a node stand in the code; all of them, if it is no branch. -/
theorem codeAt_node (himg : Image W branchOf patch ir ws) (hj : ir.code[j]? = some node)
    {ns rest : List U32} (hW : W node = ns ++ rest) (hkeep : branchOf node = none ∨ rest ≠ []) :
    CodeAt (ofWords ws) (4 * (wordPos W ir.code j : ℤ)) ns :=
  fun _ _ hi => himg.fetch hj hW hkeep hi

/-- **A node that is no branch.** -/
theorem steps_straight (himg : Image W branchOf patch ir ws) (hj : ir.code[j]? = some node)
    (hbranch : branchOf node = none) {c c' : Cpu} (hline : Line (W node) c c') :
    steps (step (ofWords ws)) ⟨c, 4 * (wordPos W ir.code j : ℤ)⟩ (W node).length =
      .ok ⟨c', 4 * (wordPos W ir.code (j + 1) : ℤ)⟩ := by
  have hcode := codeAt_node himg hj (List.append_nil (W node)).symm (Or.inl hbranch)
  rw [hline.steps hcode, wordPos_succ hj, Nat.cast_add, mul_add]

/-- **A branch.**  Its last word is patched; the machine goes to the target of the branch, or on to
the next node. -/
theorem steps_branch (himg : Image W branchOf patch ir ws) (hj : ir.code[j]? = some node)
    {t : BasicBlockId} {k : Bool} (hbranch : branchOf node = some (t, k)) {ns : List U32} {w : U32}
    (hW : W node = ns ++ [w]) {c c' : Cpu} (hline : Line ns c c') {taken : Bool}
    (hpatch : ∀ (d : ℤ) (f : U32 → U32), patch k (4 * d) = some f → ∃ i, decode (f w) = some i ∧
      i.exec c' = c' ∧ i.displacement c' = if taken then 4 * d else 4) :
    ∃ ip, ir.entry t = some ip ∧
      steps (step (ofWords ws)) ⟨c, 4 * (wordPos W ir.code j : ℤ)⟩ (ns.length + 1) =
        .ok ⟨c', 4 * (wordPos W ir.code (if taken then ip else j + 1) : ℤ)⟩ := by
  obtain ⟨ip, f, hentry, hf, hfetch⟩ := himg.fetch_branch hj hbranch hW
  obtain ⟨i, hdecode, hexec, hdisp⟩ := hpatch _ f hf
  refine ⟨ip, hentry, ?_⟩
  have hcode := codeAt_node himg hj hW (Or.inr (List.cons_ne_nil w []))
  have hlastStep := step_of_fetch hfetch hdecode c'
  rw [hexec, hdisp] at hlastStep
  refine steps_succ_eq_ok.2 ⟨_, hline.steps hcode, hlastStep.trans ?_⟩
  have hsucc := wordPos_succ (W := W) hj
  rw [hW, List.length_append, List.length_singleton] at hsucc
  cases taken with
  | true =>
    rw [if_pos rfl, if_pos rfl]
    congr 2
    push_cast
    ring
  | false =>
    rw [if_neg Bool.false_ne_true, if_neg Bool.false_ne_true, hsucc]
    congr 2
    push_cast
    ring

/-- The words of a node are those the emitter emits. -/
theorem words_eq [Profile] {limit : ℕ} (hem : Emission emitNode ir.code W branchOf limit)
    (hj : ir.code[j]? = some node) {ns : List U32}
    (hns : ∀ e, emitNode e node = .ok (e.append ns (branchOf node))) : W node = ns :=
  hem.words_eq (List.mem_of_getElem? hj) fun e _ => hns e

/-! ### Registers -/

/-- The machine register of an eBPF register. -/
def xreg : BpfReg → Reg := ![7, 0, 1, 2, 3, 4, 19, 20, 21, 22, 25]

theorem phys_eq : ∀ r, aarch64Regmap.phys r = physOf (xreg r) := by
  decide

theorem xreg_injective : Function.Injective xreg := by
  decide

/-- The registers of the emitter are none of these. -/
theorem xreg_free : ∀ r, xreg r ≠ 9 ∧ xreg r ≠ 12 ∧ xreg r ≠ 29 ∧ xreg r ≠ 30 ∧ xreg r ≠ 31 := by
  decide

theorem notMem_written {r d : Reg} (hd : r ≠ d) (h9 : r ≠ 9) (h12 : r ≠ 12) :
    r ∉ ({d, 9, 12} : Set Reg) := by
  rintro (h | h | h)
  · exact hd h
  · exact h9 h
  · exact h12 h

theorem freeOperand_translateSource (src : Source) :
    FreeOperand (aarch64Regmap.translateSource src) := by
  cases src with
  | imm v => trivial
  | reg r =>
    obtain ⟨h9, h12, -, -, h31⟩ := xreg_free r
    exact ⟨xreg r, h9, h12, h31, phys_eq r⟩

/-- The registers of the machine hold those of the program; `X30` holds the link register. -/
structure Holds (lr : U64) (regs : PhysReg → U64) (c : Cpu) : Prop where
  regs : ∀ r, c.x (xreg r) = regs (aarch64Regmap.phys r)
  link : c.x 30 = lr

namespace Holds

variable {lr : U64} {regs : PhysReg → U64} {c c' : Cpu}

theorem operandVal_eq (h : Holds lr regs c) (src : Source) :
    operandVal c (aarch64Regmap.translateSource src) =
      resolveOperand regs (aarch64Regmap.translateSource src) := by
  cases src with
  | imm v => rfl
  | reg r =>
    have hsrc : aarch64Regmap.translateSource (.reg r) = .reg (physOf (xreg r)) :=
      congrArg Operand.reg (phys_eq r)
    rw [hsrc, operandVal_physOf, h.regs r, phys_eq]
    rfl

/-- Registers that are not mapped do not count. -/
theorem same (h : Holds lr regs c) {S : Set Reg} (hS : SameOutside S c c')
    (hfree : ∀ r, xreg r ∉ S) (hlink : 30 ∉ S) : Holds lr regs c' :=
  ⟨fun r => (hS.x _ (hfree r)).trans (h.regs r), (hS.x 30 hlink).trans h.link⟩

/-- Writing a register on both sides. -/
theorem write (h : Holds lr regs c) {d : BpfReg} {v : U64}
    (hS : SameOutside {xreg d, 9, 12} c c') (hv : c'.x (xreg d) = v) :
    Holds lr (Function.update regs (aarch64Regmap.phys d) v) c' := by
  have hlink : (30 : Reg) ∉ ({xreg d, 9, 12} : Set Reg) :=
    notMem_written (xreg_free d).2.2.2.1.symm (by decide) (by decide)
  refine ⟨fun r => ?_, (hS.x 30 hlink).trans h.link⟩
  by_cases hr : r = d
  · rw [hr, Function.update_self, hv]
  · have hne : aarch64Regmap.phys r ≠ aarch64Regmap.phys d := fun heq =>
      hr (aarch64Regmap_injective heq)
    have hout : xreg r ∉ ({xreg d, 9, 12} : Set Reg) :=
      notMem_written (xreg_injective.ne hr) (xreg_free r).1 (xreg_free r).2.1
    rw [Function.update_of_ne hne, hS.x _ hout, h.regs r]

end Holds

/-! ### The relation -/

/-- Nodes that work on registers, with branches whose condition code says what the program
decides. -/
def NodeOnRegisters : IrNode → Prop
  | .alu64 _ dst src | .alu32 _ dst src =>
    (∃ d, dst = aarch64Regmap.phys d) ∧ ∃ s, src = aarch64Regmap.translateSource s
  | .loadImm64 dst _ => ∃ d, dst = aarch64Regmap.phys d
  | .branch cond _ =>
    CondSupported cond ∧ (∃ l, cond.lhs = aarch64Regmap.phys l) ∧
      ∃ s, cond.rhs = aarch64Regmap.translateSource s
  | .jump _ | .ret => True
  | .prologue frameSize | .epilogue frameSize => frameSize.toNat < 2 ^ 15
  | _ => False

/-- A lowered program on registers: with a frame it starts with a prologue, and only then it has
epilogues, each before a `ret`. -/
structure OnRegisters (ir : IrProgram) : Prop where
  node : ∀ node ∈ ir.code, NodeOnRegisters node
  prologue : 0 < ir.frameSize → ir.code[0]? = some (.prologue ir.frameSize)
  epilogue : ∀ {j : ℕ} {f : U16}, ir.code[j]? = some (.epilogue f) →
    0 < ir.frameSize ∧ ir.code[j + 1]? = some .ret

/-- The frame, if there is one, holds the link register. -/
def Framed (ir : IrProgram) (lr : U64) (c : Cpu) : Prop :=
  0 < ir.frameSize → c.load64 (addrAt (c.x 31) 8) = lr

theorem Framed.same {lr : U64} {c c' : Cpu} (h : Framed ir lr c) {S : Set Reg}
    (hS : SameOutside S c c') (hsp : 31 ∉ S) : Framed ir lr c' := by
  intro hf
  rw [hS.x 31 hsp, Cpu.load64, hS.mem]
  exact h hf

/-- What a state of the program and a state of the machine have in common:

* `body`: the machine is at the words of the next node.  There is a frame unless the program is at
  its first node.
* `ret`: the same at a `ret`, behind an epilogue.
* `word`: at a `ret`, the machine has come to the `RET`. -/
inductive Matches (W : IrNode → List U32) (ir : IrProgram) (lr : U64) : IrState → Machine → Prop
  | body {t : IrState} {c : Cpu} (hregs : Holds lr t.regs c) (hframe : t.ip ≠ 0 → Framed ir lr c) :
    Matches W ir lr t ⟨c, 4 * (wordPos W ir.code t.ip : ℤ)⟩
  | ret {t : IrState} {c : Cpu} (hret : NVMirror.AtRet ir t)
      (hresult : c.x 7 = t.regs (aarch64Regmap.phys BpfReg.r0)) (hlink : c.x 30 = lr) :
    Matches W ir lr t ⟨c, 4 * (wordPos W ir.code t.ip : ℤ)⟩
  | word {t : IrState} {c : Cpu} (hret : NVMirror.AtRet ir t)
      (hresult : c.x 0 = t.regs (aarch64Regmap.phys BpfReg.r0)) (hlink : c.x 30 = lr) :
    Matches W ir lr t ⟨c, 4 * (wordPos W ir.code t.ip : ℤ) + 4⟩

section

variable {lr : U64} {t : IrState} {c : Cpu}

/-- The start of a run. -/
theorem Matches.start (hip : t.ip = 0) (hregs : Holds lr t.regs c) : Matches W ir lr t ⟨c, 0⟩ := by
  have hpos : 4 * (wordPos W ir.code t.ip : ℤ) = 0 := by
    rw [hip]
    rfl
  rw [← hpos]
  exact Matches.body hregs fun hne => absurd hip hne

/-- A node that writes one register. -/
theorem matches_write (himg : Image W branchOf patch ir ws) (hj : ir.code[t.ip]? = some node)
    (hbranch : branchOf node = none) (hpos : 0 < (W node).length) {d : BpfReg} {v : U64}
    (hwrites : Writes (W node) {xreg d, 9, 12} c (xreg d) v) (hregs : Holds lr t.regs c)
    (hframe : Framed ir lr c) :
    ∃ k, Rel (Matches W ir lr) (.ok (t.setReg (aarch64Regmap.phys d) v).next)
      (steps (step (ofWords ws)) ⟨c, 4 * (wordPos W ir.code t.ip : ℤ)⟩ (k + 1)) := by
  obtain ⟨c', hline, hv, hsame⟩ := hwrites
  have hsp : (31 : Reg) ∉ ({xreg d, 9, 12} : Set Reg) :=
    notMem_written (xreg_free d).2.2.2.2.symm (by decide) (by decide)
  refine ⟨(W node).length - 1, ?_⟩
  rw [Nat.sub_add_cancel hpos, steps_straight himg hj hbranch hline]
  exact Matches.body (t := (t.setReg (aarch64Regmap.phys d) v).next) (hregs.write hsame hv)
    fun _ => hframe.same hsame hsp

/-- A branch or jump. -/
theorem matches_branch (taken : Bool) (himg : Image W branchOf patch ir ws)
    (hj : ir.code[t.ip]? = some node) {b : BasicBlockId} {k : Bool}
    (hbranch : branchOf node = some (b, k)) {ns : List U32} {w : U32}
    (hW : W node = ns ++ [w]) {c' : Cpu} (hline : Line ns c c') (hsame : SameOutside {9} c c')
    (hpatch : ∀ (d : ℤ) (f : U32 → U32), patch k (4 * d) = some f → ∃ i, decode (f w) = some i ∧
      i.exec c' = c' ∧ i.displacement c' = if taken then 4 * d else 4)
    (hregs : Holds lr t.regs c) (hframe : Framed ir lr c) :
    ∃ k, Rel (Matches W ir lr) (if taken then ir.goto t b else .ok t.next)
      (steps (step (ofWords ws)) ⟨c, 4 * (wordPos W ir.code t.ip : ℤ)⟩ (k + 1)) := by
  obtain ⟨ip, hentry, hsteps⟩ := steps_branch himg hj hbranch hW hline hpatch
  have hregs' : Holds lr t.regs c' := hregs.same hsame (fun r => (xreg_free r).1) (by decide)
  have hframe' : Framed ir lr c' := hframe.same hsame (by decide)
  refine ⟨ns.length, ?_⟩
  rw [hsteps]
  cases taken with
  | true =>
    rw [if_pos rfl, if_pos rfl, IrProgram.goto, hentry]
    exact Matches.body (t := { t with ip }) hregs' fun _ => hframe'
  | false =>
    rw [if_neg Bool.false_ne_true, if_neg Bool.false_ne_true]
    exact Matches.body (t := t.next) hregs' fun _ => hframe'

/-- The condition of a branch, on the machine. -/
theorem compare_holds {cond : BranchCond} (hcond : CondSupported cond) {l : BpfReg} {src : Source}
    (hlhs : cond.lhs = aarch64Regmap.phys l) (hrhs : cond.rhs = aarch64Regmap.translateSource src)
    (hregs : Holds lr t.regs c) :
    ∃ c', Line (compareWords cond) c c' ∧ SameOutside {9} c c' ∧
      conditionHolds ((jmpopToConditionCode cond.op).setWidth 4) c'.flags = cond.holds t.regs := by
  obtain ⟨h9, -, -, -, h31⟩ := xreg_free l
  have hfree := freeOperand_translateSource src
  rw [← hrhs] at hfree
  obtain ⟨c', hline, hsame, hflags⟩ := compare_line (hlhs.trans (phys_eq l)) h9 hfree.reg c
  refine ⟨c', hline, hsame, ?_⟩
  have hval := hregs.operandVal_eq src
  rw [← hrhs] at hval
  rw [hflags, conditionHolds_compareFlags hcond.ne_jset, hcond.holds_eq, operandOrZero_eq hfree,
    hval, regOrZero, if_neg h31, hregs.regs l, ← hlhs]
  rfl

/-- A prologue saves the link register. -/
theorem holds_afterPrologue (frameSize : U16) (ir : IrProgram) (hregs : Holds lr t.regs c) :
    Holds lr t.regs (afterPrologue frameSize c) ∧ Framed ir lr (afterPrologue frameSize c) := by
  have hx : ∀ r, r ≠ 31 → r ≠ 29 → (afterPrologue frameSize c).x r = c.x r := by
    intro r h31 h29
    dsimp only [afterPrologue]
    rw [Function.update_of_ne h29, Function.update_of_ne h31]
  refine ⟨⟨fun r => ?_, ?_⟩, fun _ => ?_⟩
  · obtain ⟨-, -, h29, -, h31⟩ := xreg_free r
    rw [hx _ h31 h29, hregs.regs r]
  · rw [hx 30 (by decide) (by decide), hregs.link]
  · have hsaved := saved_afterPrologue frameSize c (8, 30) (by decide)
    exact hsaved.trans hregs.link

end

/-! ### The end of a run -/

/-- The machine stays at `RET`. -/
theorem step_of_atRet {code : List U8} {m : Machine} (h : AtRet code m) :
    step code m = .ok m := by
  rcases m with ⟨c, pc⟩
  obtain ⟨w, hfetch, hdecode⟩ := Option.bind_eq_some_iff.1 h
  rw [step_of_fetch hfetch hdecode]
  exact congrArg (fun pc => Except.ok (⟨c, pc⟩ : Machine)) (Int.add_zero pc)

variable [Profile] {limit : ℕ} {lr : U64} {t : IrState} {c : Cpu}

theorem words_ret (hem : Emission emitNode ir.code W branchOf limit) (hret : NVMirror.AtRet ir t) :
    W .ret = [movXReg 0 7, ret] :=
  words_eq hem hret fun e => congrArg Except.ok (e.emitWords_eq _)

/-- At `ret` the machine moves the result to `X0`. -/
theorem steps_ret (hem : Emission emitNode ir.code W branchOf limit)
    (himg : Image W branchOf patch ir ws) (hret : NVMirror.AtRet ir t)
    (hresult : c.x 7 = t.regs (aarch64Regmap.phys BpfReg.r0)) (hlink : c.x 30 = lr) :
    ∃ c', steps (step (ofWords ws)) ⟨c, 4 * (wordPos W ir.code t.ip : ℤ)⟩ 1 =
        .ok ⟨c', 4 * (wordPos W ir.code t.ip : ℤ) + 4⟩ ∧
      c'.x 0 = t.regs (aarch64Regmap.phys BpfReg.r0) ∧ c'.x 30 = lr := by
  have hdecode : decode (movXReg 0 7) = some (.data .orr true 0 31 7) := by decide
  have hcode : CodeAt (ofWords ws) (4 * (wordPos W ir.code t.ip : ℤ)) [movXReg 0 7] :=
    codeAt_node himg hret (words_ret hem hret) (Or.inl rfl)
  have hexec : (Instr.data .orr true 0 31 7).exec c = c.set 0 (c.x 7) := by
    dsimp only [Instr.exec, DataOp.setFlags, DataOp.eval]
    rw [c.get_zero, c.get_true (by decide)]
    congr 1
    exact (BitVec.setWidth_eq _).trans (BitVec.zero_or)
  have hsteps := (Line.word hdecode rfl c).steps hcode
  rw [hexec] at hsteps
  refine ⟨_, hsteps, ?_, ?_⟩
  · rw [c.set_x_self _ (by decide), hresult]
  · rw [c.set_x_of_ne _ (by decide), hlink]

/-- Behind it stands `RET`. -/
theorem atRet_word (hem : Emission emitNode ir.code W branchOf limit)
    (himg : Image W branchOf patch ir ws) (hret : NVMirror.AtRet ir t) (c : Cpu) :
    AtRet (ofWords ws) ⟨c, 4 * (wordPos W ir.code t.ip : ℤ) + 4⟩ := by
  have hfetch := himg.fetch hret ((words_ret hem hret).trans (List.append_nil _).symm) (Or.inl rfl)
    (i := 1) rfl
  unfold AtRet
  exact (congrArg (Option.bind · decode) hfetch).trans (by decide)

/-- **The result.**  If the program is at a `ret`, the machine comes to a `RET` with the result in
`X0` and the first link register in `X30`. -/
theorem Matches.atRet (hem : Emission emitNode ir.code W branchOf limit)
    (himg : Image W branchOf patch ir ws) {m : Machine} (h : Matches W ir lr t m)
    (hret : NVMirror.AtRet ir t) :
    ∃ k m', steps (step (ofWords ws)) m k = .ok m' ∧ AtRet (ofWords ws) m' ∧
      m'.x 0 = t.regs (aarch64Regmap.phys BpfReg.r0) ∧ m'.x 30 = lr := by
  cases h with
  | body hregs hframe =>
    obtain ⟨c', hsteps, hx0, hx30⟩ := steps_ret hem himg hret (hregs.regs BpfReg.r0) hregs.link
    exact ⟨1, _, hsteps, atRet_word hem himg hret c', hx0, hx30⟩
  | ret _ hresult hlink =>
    obtain ⟨c', hsteps, hx0, hx30⟩ := steps_ret hem himg hret hresult hlink
    exact ⟨1, _, hsteps, atRet_word hem himg hret c', hx0, hx30⟩
  | word _ hresult hlink => exact ⟨0, _, rfl, atRet_word hem himg hret _, hresult, hlink⟩

/-! ### The simulation -/

/-- One node of the program from `t` is one or more instructions of the machine. -/
def MatchesNode (W : IrNode → List U32) (ir : IrProgram) (ws : List U32) (lr stackPtr : U64)
    (t : IrState) (c : Cpu) (node : IrNode) : Prop :=
  ∃ k, Rel (Matches W ir lr) (@execNode release _ (.plain aarch64Regmap stackPtr) ir t node)
    (steps (step (ofWords ws)) ⟨c, 4 * (wordPos W ir.code t.ip : ℤ)⟩ (k + 1))

section

variable (hem : Emission emitNode ir.code W branchOf limit) (himg : Image W branchOf patch ir ws)
  (stackPtr : U64) (hregs : Holds lr t.regs c)

include hem himg hregs

theorem matchesNode_alu64 {op : AluOp} {d : BpfReg} {s : Source}
    (hj : ir.code[t.ip]? =
      some (.alu64 op (aarch64Regmap.phys d) (aarch64Regmap.translateSource s)))
    (hframe : Framed ir lr c) : MatchesNode W ir ws lr stackPtr t c
      (.alu64 op (aarch64Regmap.phys d) (aarch64Regmap.translateSource s)) := by
  obtain ⟨h9, h12, -, -, h31⟩ := xreg_free d
  obtain ⟨ns, hns, hwrites⟩ := writes_alu64 (ε := AArch64EmitError) op h9 h12 h31
    (freeOperand_translateSource s)
  rw [← phys_eq] at hns
  have hpos : 0 < ns.length := by
    obtain ⟨ns', hns', hpos, -⟩ := emitAlu64Node_ok (ε := AArch64EmitError) op
      (aarch64Regmap.phys d) (aarch64Regmap.translateSource s)
    cases hns.symm.trans hns'
    exact hpos
  have hW : W (.alu64 op (aarch64Regmap.phys d) (aarch64Regmap.translateSource s)) = ns :=
    words_eq hem hj fun e => by
      rw [emitNode, hns]
      exact congrArg Except.ok (e.emitWords_eq ns)
  unfold MatchesNode
  dsimp only [execNode]
  rw [evalAlu64_eq]
  refine matches_write himg hj rfl (hW ▸ hpos) ?_ hregs hframe
  rw [hW, ← hregs.operandVal_eq, ← hregs.regs]
  exact hwrites c

theorem matchesNode_alu32 {op : AluOp} {d : BpfReg} {s : Source}
    (hj : ir.code[t.ip]? =
      some (.alu32 op (aarch64Regmap.phys d) (aarch64Regmap.translateSource s)))
    (hframe : Framed ir lr c) : MatchesNode W ir ws lr stackPtr t c
      (.alu32 op (aarch64Regmap.phys d) (aarch64Regmap.translateSource s)) := by
  obtain ⟨h9, h12, -, -, h31⟩ := xreg_free d
  have hwrites := writes_alu32 op h9 h12 h31 (freeOperand_translateSource s) c
  rw [← phys_eq] at hwrites
  have hW := words_eq hem hj fun e => congrArg Except.ok (e.emitWords_eq _)
  unfold MatchesNode
  dsimp only [execNode]
  rw [evalAlu32_eq]
  refine matches_write himg hj rfl ?_ ?_ hregs hframe
  · rw [hW]
    exact (length_emitAlu32Node op _ _).1
  · rw [hW, ← hregs.operandVal_eq, ← hregs.regs]
    exact hwrites

theorem matchesNode_loadImm64 {d : BpfReg} {imm : U64}
    (hj : ir.code[t.ip]? = some (.loadImm64 (aarch64Regmap.phys d) imm))
    (hframe : Framed ir lr c) :
    MatchesNode W ir ws lr stackPtr t c (.loadImm64 (aarch64Regmap.phys d) imm) := by
  have hwrites := writes_loadImm64 (xreg_free d).2.2.2.2 imm c
  rw [← phys_eq] at hwrites
  have hW := words_eq hem hj fun e => congrArg Except.ok (e.emitWords_eq _)
  refine matches_write himg hj rfl ?_ ?_ hregs hframe
  · rw [hW, emitLoadImm64_eq]
    exact Nat.succ_pos _
  · rw [hW]
    exact hwrites.mono (by simp)

theorem matchesNode_branch {cond : BranchCond} {target : BasicBlockId}
    (hnode : NodeOnRegisters (.branch cond target))
    (hj : ir.code[t.ip]? = some (.branch cond target)) (hframe : Framed ir lr c) :
    MatchesNode W ir ws lr stackPtr t c (.branch cond target) := by
  obtain ⟨hcond, ⟨l, hlhs⟩, s, hrhs⟩ := hnode
  have hW := words_eq hem hj fun e => congrArg Except.ok (emitBranchNode_eq e cond target)
  rw [branchWords_eq] at hW
  obtain ⟨c', hline, hsame, hholds⟩ := compare_holds hcond hlhs hrhs hregs
  refine matches_branch _ himg hj rfl hW hline hsame (fun d f hf => ?_) hregs hframe
  obtain ⟨imm19, hdecode, rfl⟩ := patch_conditional cond.op hf
  refine ⟨_, hdecode, rfl, ?_⟩
  dsimp only [Instr.displacement]
  rw [hholds]

theorem matchesNode_jump {target : BasicBlockId} (hj : ir.code[t.ip]? = some (.jump target))
    (hframe : Framed ir lr c) : MatchesNode W ir ws lr stackPtr t c (.jump target) := by
  have hW : W (.jump target) = [] ++ [bImm 0] := words_eq hem hj fun e =>
    congrArg Except.ok (e.pushRelocation_emit32 (bImm 0) target false)
  refine matches_branch true himg hj rfl hW (Line.nil c) (SameOutside.refl _ c)
    (fun d f hf => ?_) hregs hframe
  obtain ⟨imm26, hdecode, rfl⟩ := patch_unconditional hf (bImm 0)
  exact ⟨_, hdecode, rfl, rfl⟩

/-- The frame is there behind a prologue. -/
theorem matchesNode_prologue {frameSize : U16} (hsize : frameSize.toNat < 2 ^ 15)
    (hj : ir.code[t.ip]? = some (.prologue frameSize)) :
    MatchesNode W ir ws lr stackPtr t c (.prologue frameSize) := by
  obtain ⟨ns, hns, hline⟩ := prologue_line (ε := AArch64EmitError) hsize
  have hpos : 0 < ns.length := by
    obtain ⟨ns', hns', hlen⟩ := emitPrologue_ok (ε := AArch64EmitError) (frameNegates_of_lt hsize)
    cases hns.symm.trans hns'
    omega
  have hW : W (.prologue frameSize) = ns := words_eq hem hj fun e => by
    rw [emitNode, hns]
    exact congrArg Except.ok (e.emitWords_eq ns)
  rw [← hW] at hline hpos
  obtain ⟨hregs', hframe'⟩ := holds_afterPrologue frameSize ir hregs
  refine ⟨(W (.prologue frameSize)).length - 1, ?_⟩
  rw [Nat.sub_add_cancel hpos, steps_straight himg hj rfl (hline c)]
  exact Matches.body (t := t.next) hregs' fun _ => hframe'

/-- Behind an epilogue the machine is at a `ret`, with the link register of the frame. -/
theorem matchesNode_epilogue {frameSize : U16} (hf : 0 < ir.frameSize)
    (hret : ir.code[t.ip + 1]? = some .ret) (hj : ir.code[t.ip]? = some (.epilogue frameSize))
    (hframe : Framed ir lr c) : MatchesNode W ir ws lr stackPtr t c (.epilogue frameSize) := by
  obtain ⟨c', hline, -, hslots, hother, -⟩ := epilogue_line frameSize c
  have hW := words_eq hem hj fun e => congrArg Except.ok (e.emitWords_eq (emitEpilogue frameSize))
  have hlen : 0 < (W (.epilogue frameSize)).length := by
    rw [hW]
    exact Nat.succ_pos _
  refine ⟨(W (.epilogue frameSize)).length - 1, ?_⟩
  rw [Nat.sub_add_cancel hlen, steps_straight himg hj rfl (hW ▸ hline)]
  refine Matches.ret (t := t.next) hret ?_ ?_
  · exact (hother 7 (by decide) (by decide)).trans (hregs.regs BpfReg.r0)
  · exact (hslots (8, 30) (by decide)).trans (hframe hf)

end

/-- One node. -/
theorem matches_step (hem : Emission emitNode ir.code W branchOf limit)
    (himg : Image W branchOf patch ir ws) (hon : OnRegisters ir) (stackPtr : U64)
    (hj : ir.code[t.ip]? = some node) (hregs : Holds lr t.regs c)
    (hframe : t.ip ≠ 0 → Framed ir lr c) : MatchesNode W ir ws lr stackPtr t c node := by
  have hnode := hon.node node (List.mem_of_getElem? hj)
  -- only the prologue may stand at the start of a program with a frame
  have hframed : (∀ f, node ≠ .prologue f) → Framed ir lr c := by
    intro hne
    by_cases hzero : t.ip = 0
    · intro hf
      have hfirst := hon.prologue hf
      rw [← hzero, hj] at hfirst
      exact absurd (Option.some.inj hfirst) (hne _)
    · exact hframe hzero
  cases node with
  | alu64 op dst src =>
    obtain ⟨⟨d, rfl⟩, s, rfl⟩ := hnode
    exact matchesNode_alu64 hem himg stackPtr hregs hj (hframed (by simp))
  | alu32 op dst src =>
    obtain ⟨⟨d, rfl⟩, s, rfl⟩ := hnode
    exact matchesNode_alu32 hem himg stackPtr hregs hj (hframed (by simp))
  | loadImm64 dst imm =>
    obtain ⟨d, rfl⟩ := hnode
    exact matchesNode_loadImm64 hem himg stackPtr hregs hj (hframed (by simp))
  | branch cond target =>
    exact matchesNode_branch hem himg stackPtr hregs hnode hj (hframed (by simp))
  | jump target => exact matchesNode_jump hem himg stackPtr hregs hj (hframed (by simp))
  | ret =>
    obtain ⟨c', hsteps, hx0, hx30⟩ := steps_ret hem himg hj (hregs.regs BpfReg.r0) hregs.link
    refine ⟨0, ?_⟩
    rw [hsteps]
    exact Matches.word hj hx0 hx30
  | prologue frameSize => exact matchesNode_prologue hem himg stackPtr hregs hnode hj
  | epilogue frameSize =>
    obtain ⟨hf, hret⟩ := hon.epilogue hj
    exact matchesNode_epilogue hem himg stackPtr hregs hf hret hj (hframed (by simp))
  | _ => exact hnode.elim

/-- **The machine simulates the program.** -/
theorem simulates (hem : Emission emitNode ir.code W branchOf limit)
    (himg : Image W branchOf patch ir ws) (hon : OnRegisters ir) (stackPtr lr : U64) :
    Simulates (Matches W ir lr) (@irStep release _ (.plain aarch64Regmap stackPtr) ir)
      (step (ofWords ws)) := by
  intro t m hm
  have hstay : NVMirror.AtRet ir t →
      @irStep release _ (.plain aarch64Regmap stackPtr) ir t = .ok t :=
    fun hret => @irStep_of_atRet release _ _ _ _ hret
  cases hm with
  | body hregs hframe =>
    cases hj : ir.code[t.ip]? with
    | some node =>
      rw [@irStep_of_getElem? release _ _ _ _ _ hj]
      exact matches_step hem himg hon stackPtr hj hregs hframe
    | none =>
      refine ⟨0, ?_⟩
      unfold irStep
      rw [hj, steps_one, step_of_fetch_none (himg.fetch_end hj)]
      exact Matches.body hregs hframe
  | ret hret hresult hlink =>
    obtain ⟨c', hsteps, hx0, hx30⟩ := steps_ret hem himg hret hresult hlink
    refine ⟨0, ?_⟩
    rw [hstay hret, hsteps]
    exact Matches.word hret hx0 hx30
  | word hret hresult hlink =>
    refine ⟨0, ?_⟩
    rw [hstay hret, steps_one, step_of_atRet (atRet_word hem himg hret _)]
    exact Matches.word hret hresult hlink

end NVMirror.Aarch64
