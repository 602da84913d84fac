import NVMirror.JitEngine.Steps
import NVMirror.JitRegalloc.Layout
import NVMirror.JitRegalloc.Semantics

/-!
# Lowering preserves meaning

The lowered program runs in step with the interpreter: `Aligned` relates a state of the
interpreter to a state at the nodes of the same instruction.  A step of the interpreter is one
node of the lowered program, except that a jump to instruction 0 comes to the prologue first
(`Lowering.goto`) and an `Exit` with a frame runs the epilogue.
-/

namespace NVMirror

open Rust Leaders

variable {insns : List Insn} {regmap : RegMap} {flags : List Bool} {pcToBb : List BasicBlockId}
  {nodes : ℕ → List IrNode} {ir : IrProgram}

/-! ### Positions -/

/-- Position of the first node of instruction `pc`. -/
def nodePos (frameSize : U16) (nodes : ℕ → List IrNode) (pc : ℕ) : ℕ :=
  (prologueOf frameSize ++ spanNodes nodes 0 pc).length

theorem nodePos_succ (frameSize : U16) (nodes : ℕ → List IrNode) (pc : ℕ) :
    nodePos frameSize nodes (pc + 1) = nodePos frameSize nodes pc + (nodes pc).length := by
  unfold nodePos
  rw [spanNodes_succ nodes (Nat.zero_le pc), ← List.append_assoc, List.length_append]

theorem nodePos_zero (frameSize : U16) (nodes : ℕ → List IrNode) :
    nodePos frameSize nodes 0 = (prologueOf frameSize).length := by
  rw [nodePos, spanNodes_self, List.append_nil]

namespace Lowering

/-- The nodes of instruction `pc` stand at its position. -/
theorem code_getElem? (h : Lowering insns regmap flags pcToBb nodes ir) (hne : insns ≠ [])
    {pc j : ℕ} (hpc : pc < insns.length) (hj : j < (nodes pc).length) :
    ir.code[nodePos ir.frameSize nodes pc + j]? = (nodes pc)[j]? := by
  have hcode : ir.code = (prologueOf ir.frameSize ++ spanNodes nodes 0 pc) ++
      (nodes pc ++ spanNodes nodes (pc + 1) insns.length) := by
    have hone : spanNodes nodes pc (pc + 1) = nodes pc := by
      rw [spanNodes_succ nodes le_rfl, spanNodes_self, List.nil_append]
    rw [IrProgram.code, h.flatMap_nodes hne, ← hone, spanNodes_append nodes (Nat.le_succ pc) hpc,
      List.append_assoc, spanNodes_append nodes (Nat.zero_le pc) hpc.le]
  rw [hcode, nodePos, List.getElem?_append_right (Nat.le_add_right _ _), Nat.add_sub_cancel_left,
    List.getElem?_append_left hj]

/-- Every node is the prologue or stands among the nodes of an instruction. -/
theorem code_cases (h : Lowering insns regmap flags pcToBb nodes ir) (hne : insns ≠ []) {j : ℕ}
    {node : IrNode} (hj : ir.code[j]? = some node) :
    (0 < ir.frameSize ∧ node = .prologue ir.frameSize) ∨
      ∃ pc insn k, insns[pc]? = some insn ∧ (nodes pc)[k]? = some node ∧
        j = nodePos ir.frameSize nodes pc + k := by
  rw [IrProgram.code, h.flatMap_nodes hne, List.getElem?_append] at hj
  split_ifs at hj with hpro
  · refine Or.inl ?_
    unfold prologueOf at hj
    split_ifs at hj with hf
    · exact ⟨hf, by simpa using List.mem_of_getElem? hj⟩
    · cases hj
  · refine Or.inr ?_
    -- the instructions before `e`
    have hspan : ∀ e ≤ insns.length, ∀ i : ℕ, (spanNodes nodes 0 e)[i]? = some node →
        ∃ pc insn k, insns[pc]? = some insn ∧ (nodes pc)[k]? = some node ∧
          i = (spanNodes nodes 0 pc).length + k := by
      intro e he i hi
      induction e with
      | zero =>
        rw [spanNodes_self] at hi
        cases hi
      | succ e ih =>
        rw [spanNodes_succ nodes (Nat.zero_le e), List.getElem?_append] at hi
        split_ifs at hi with hlt
        · exact ih (by omega) hi
        · exact ⟨e, _, _, List.getElem?_eq_getElem he, hi, by omega⟩
    obtain ⟨pc, insn, k, hget, hk, hi⟩ := hspan _ le_rfl _ hj
    refine ⟨pc, insn, k, hget, hk, ?_⟩
    rw [nodePos, List.length_append]
    omega

/-- Behind the last instruction there are no nodes. -/
theorem code_end (h : Lowering insns regmap flags pcToBb nodes ir) (hne : insns ≠ []) :
    ir.code[nodePos ir.frameSize nodes insns.length]? = none := by
  rw [List.getElem?_eq_none]
  rw [IrProgram.code, h.flatMap_nodes hne, nodePos]

/-- The block of a leader starts with the prologue, if it is block 0, and then the nodes of the
leader. -/
theorem entry_eq (h : Lowering insns regmap flags pcToBb nodes ir) (hacc : Accepted insns) {q : ℕ}
    (hq : IsSet flags q) : ∃ ip, ir.entry ⟨BitVec.ofNat 32 (rank flags q)⟩ = some ip ∧
      (ip = nodePos ir.frameSize nodes q ∨
        q = 0 ∧ ip = 0 ∧ 0 < ir.frameSize) := by
  have hlt := h.rank_lt hq
  -- the block with the number of the leader is the one at that index
  have hb := List.getElem?_eq_getElem hlt
  have hid : ir.blocks[rank flags q].id = ⟨BitVec.ofNat 32 (rank flags q)⟩ :=
    BasicBlockId.eq_of_toNat_eq ((h.block_id hacc hb).trans (h.id_toNat hacc.length_lt hlt).symm)
  have hentry := IrProgram.entry_of_getElem? hb fun j b' hj hb' heq => by
    have := h.block_id hacc hb'
    rw [heq, h.block_id hacc hb] at this
    omega
  rw [hid] at hentry
  refine ⟨_, hentry, ?_⟩
  have hpos := getElem?_positions_rank hq
  cases hr : rank flags q with
  | zero =>
    -- block 0 starts with the prologue
    have hq0 : q = 0 := by
      have h0 := h.marks.isSet_zero hacc.ne_nil
      have := getElem?_positions_rank h0
      rw [hr] at hpos
      rw [rank_zero, hpos] at this
      exact Option.some.inj this
    subst hq0
    by_cases hf : 0 < ir.frameSize
    · exact Or.inr ⟨rfl, by simp, hf⟩
    · refine Or.inl ?_
      rw [nodePos_zero, prologueOf, if_neg hf]
      simp
  | succ j =>
    rw [hr] at hpos hlt
    have hstop : blockStop flags j = q := by rw [blockStop, hpos, Option.getD_some]
    refine Or.inl ?_
    rw [h.flatMap_take hacc.ne_nil (by omega), hstop, nodePos]

end Lowering

/-! ### The simulation -/

/-- The two states are at the same instruction, with the same registers and stack.  After the
instruction `Exit` the lowered program is at the last node of `Exit`. -/
structure Aligned (insns : List Insn) (regmap : RegMap) (nodes : ℕ → List IrNode) (ir : IrProgram)
    (s : InterpreterState) (t : IrState) : Prop where
  regs : ∀ r, t.regs (regmap.phys r) = s.regs r
  stack : t.stack = s.stack
  pc_le : s.pc ≤ insns.length
  exited : s.halted = true → insns[s.pc]? = some .exit
  ip : t.ip = nodePos ir.frameSize nodes s.pc + if s.halted then (nodes s.pc).length - 1 else 0

theorem resolveOperand_translateSource {regs : PhysReg → U64} {bregs : BpfReg → U64}
    (h : ∀ r, regs (regmap.phys r) = bregs r) (src : Source) :
    resolveOperand regs (regmap.translateSource src) = resolveSource bregs src := by
  cases src with
  | imm v => rfl
  | reg r => exact h r

/-- Assigning a register on both sides. -/
theorem setReg_phys (hinj : Function.Injective regmap.map) {s : InterpreterState} {t : IrState}
    (h : ∀ r, t.regs (regmap.phys r) = s.regs r) (dst : BpfReg) (v : U64) (r : BpfReg) :
    (t.setReg (regmap.phys dst) v).regs (regmap.phys r) = (s.setReg dst v).regs r := by
  unfold IrState.setReg InterpreterState.setReg RegMap.phys
  dsimp only
  by_cases hr : r = dst
  · subst hr
    rw [Function.update_self, Function.update_self]
  · rw [Function.update_of_ne (fun heq => hr (hinj heq)), Function.update_of_ne hr]
    exact h r

/-- A branch node and the jump it comes from. -/
theorem holds_eq_taken {regs : PhysReg → U64} {bregs : BpfReg → U64} {op : JmpOp} {dst : BpfReg}
    {src : Source} {off : I16} (h : ∀ r, regs (regmap.phys r) = bregs r) :
    (BranchCond.mk op (regmap.phys dst) (regmap.translateSource src) false).holds regs =
        (Insn.jmpCond op dst src off).taken bregs ∧
      (BranchCond.mk op (regmap.phys dst) (regmap.translateSource src) true).holds regs =
        (Insn.jmpCond32 op dst src off).taken bregs := by
  have hsrc := resolveOperand_translateSource h src
  constructor
  · dsimp only [BranchCond.holds, Insn.taken]
    rw [if_neg Bool.false_ne_true, hsrc, h]
  · dsimp only [BranchCond.holds, Insn.taken]
    rw [if_pos rfl, hsrc, h]

/-- An instruction and its node have the same effect; both go on to the next one. -/
def SameEffect (regmap : RegMap) (s s' : InterpreterState) (t t' : IrState) : Prop :=
  (∀ r, t'.regs (regmap.phys r) = s'.regs r) ∧ t'.stack = s'.stack ∧ s'.halted = s.halted ∧
    s'.pc = s.pc + 1 ∧ t'.ip = t.ip + 1

variable [Profile]

/-- **Instructions that do not jump or exit.** -/
theorem execNode_rel (ctx : IrContext regmap) (ir : IrProgram) (pcToBb : List BasicBlockId)
    (hinj : Function.Injective regmap.map) {s : InterpreterState} {t : IrState}
    (hregs : ∀ r, t.regs (regmap.phys r) = s.regs r) (hstack : t.stack = s.stack)
    (hpc : s.pc + 1 < 2 ^ 64) {insn : Insn} (hoff : insn.jumpOff = none) (hexit : insn ≠ .exit)
    (htail : insn ≠ .tailCall) :
    ∃ node, lowerInsn regmap pcToBb ir.frameSize s.pc insn = .ok [node] ∧ node ≠ .ret ∧
      Rel (fun x t' => SameEffect regmap s x.1 t t') (stepInsn ctx.stackPtr s insn)
        (execNode ctx ir t node) := by
  have hset : ∀ dst v, SameEffect regmap s { s.setReg dst v with pc := s.pc + 1 } t
      (t.setReg (regmap.phys dst) v).next := fun dst v =>
    ⟨setReg_phys hinj hregs dst v, hstack, rfl, rfl, rfl⟩
  have hstore : ∀ stack, SameEffect regmap s { s with stack, pc := s.pc + 1 } t
      { t with stack }.next := fun stack => ⟨hregs, rfl, rfl, rfl, rfl⟩
  have hadvance : ∀ u t', u.pc = s.pc → SameEffect regmap s { u with pc := s.pc + 1 } t t' →
      Rel (fun x t' => SameEffect regmap s x.1 t t') (advance u) (.ok t') := by
    intro u t' hu heff
    rw [advance_of_lt (by omega), hu]
    exact heff
  cases insn with
  | alu64 op dst src =>
    refine ⟨_, rfl, by simp, ?_⟩
    dsimp only [stepInsn, execNode]
    rw [hregs, resolveOperand_translateSource hregs]
    refine Rel.bind_same _ fun v => ?_
    exact hadvance _ _ rfl (hset dst v)
  | alu32 op dst src =>
    refine ⟨_, rfl, by simp, ?_⟩
    dsimp only [stepInsn, execNode]
    rw [hregs, resolveOperand_translateSource hregs]
    refine Rel.bind_same _ fun v => ?_
    exact hadvance _ _ rfl (hset dst _)
  | load width dst src off =>
    refine ⟨_, rfl, by simp, ?_⟩
    dsimp only [stepInsn, execNode]
    rw [hregs, hstack]
    refine Rel.bind_same _ fun rel => Rel.bind_same _ fun v => ?_
    exact hadvance _ _ rfl (hset dst v)
  | storeReg width dst src off =>
    refine ⟨_, rfl, by simp, ?_⟩
    dsimp only [stepInsn, execNode]
    rw [hregs, hregs, hstack]
    refine Rel.bind_same _ fun rel => Rel.bind_same _ fun stack => ?_
    exact hadvance _ _ rfl (hstore stack)
  | storeImm width dst off imm =>
    refine ⟨_, rfl, by simp, ?_⟩
    dsimp only [stepInsn, execNode]
    rw [hregs, hstack]
    refine Rel.bind_same _ fun rel => Rel.bind_same _ fun stack => ?_
    exact hadvance _ _ rfl (hstore stack)
  | loadImm64 dst imm =>
    refine ⟨_, rfl, by simp, ?_⟩
    dsimp only [stepInsn, execNode]
    exact hadvance _ _ rfl (hset dst imm)
  | call funcId =>
    refine ⟨_, rfl, by simp, ?_⟩
    dsimp only [stepInsn, execNode]
    exact hadvance _ _ rfl (hset _ 0)
  | atomic width op dst src off =>
    refine ⟨_, rfl, by simp, ?_⟩
    dsimp only [stepInsn, execNode]
    exact hadvance _ _ rfl ⟨hregs, hstack, rfl, rfl, rfl⟩
  | endian toBe width dst =>
    refine ⟨_, rfl, by simp, ?_⟩
    dsimp only [stepInsn, execNode]
    rw [hregs]
    exact hadvance _ _ rfl (hset dst _)
  | exit => exact absurd rfl hexit
  | tailCall => exact absurd rfl htail
  | ja off | jmpCond op dst src off | jmpCond32 op dst src off => cases hoff

/-! ### Jumps and exits -/

omit [Profile] in
theorem lowerInsn_eq_of_lowering (h : Lowering insns regmap flags pcToBb nodes ir) {pc : ℕ}
    {insn : Insn} {ns : List IrNode} (hget : insns[pc]? = some insn)
    (hns : lowerInsn regmap pcToBb ir.frameSize pc insn = .ok ns) : nodes pc = ns :=
  Except.ok.inj ((h.lower_eq pc insn hget).symm.trans hns)

/-- A jump and its node. -/
theorem execNode_of_jump (ctx : IrContext regmap) (ir : IrProgram) {regs : BpfReg → U64}
    {t : IrState} (hregs : ∀ r, t.regs (regmap.phys r) = regs r) {insn : Insn} {off : I16} {pc : ℕ}
    {target : BasicBlockId} (hoff : insn.jumpOff = some off)
    (htarget : targetBb pcToBb pc off = .ok target) :
    ∃ node, lowerInsn regmap pcToBb ir.frameSize pc insn = .ok [node] ∧ node ≠ .ret ∧
      execNode ctx ir t node =
        if insn.taken regs = true then ir.goto t target else .ok t.next := by
  cases insn with
  | ja off' =>
    cases hoff
    dsimp only [lowerInsn]
    rw [htarget]
    exact ⟨_, rfl, by simp, rfl⟩
  | jmpCond op dst src off' | jmpCond32 op dst src off' =>
    cases hoff
    dsimp only [lowerInsn]
    rw [htarget]
    refine ⟨_, rfl, by simp, ?_⟩
    dsimp only [execNode]
    first | rw [(holds_eq_taken hregs).1] | rw [(holds_eq_taken hregs).2]
    rfl
  | _ => cases hoff

/-- At the start of the code the prologue, if there is one, leads to the nodes of instruction 0. -/
theorem Lowering.enter (ctx : IrContext regmap) (h : Lowering insns regmap flags pcToBb nodes ir)
    (hne : insns ≠ []) {t : IrState} (ht : t.ip = 0) :
    ∃ m t', steps (irStep ctx ir) t m = .ok t' ∧ t'.ip = nodePos ir.frameSize nodes 0 ∧
      (∀ r, t'.regs (regmap.phys r) = t.regs (regmap.phys r)) ∧ t'.stack = t.stack := by
  have hcode : ir.code = prologueOf ir.frameSize ++ spanNodes nodes 0 insns.length :=
    h.flatMap_nodes hne
  by_cases hf : 0 < ir.frameSize
  · have hpro : ir.code[t.ip]? = some (.prologue ir.frameSize) := by
      rw [ht, hcode, prologueOf, if_pos hf]
      rfl
    let t' := { t with regs := ctx.prologue ir.frameSize t.regs }.next
    have hstep : steps (irStep ctx ir) t 1 = .ok t' := irStep_of_getElem? hpro
    refine ⟨1, t', hstep, ?_, fun r => ctx.prologue_phys _ _ r, rfl⟩
    rw [nodePos_zero, prologueOf, if_pos hf]
    exact congrArg (· + 1) ht
  · refine ⟨0, t, rfl, ?_, fun r => rfl, rfl⟩
    rw [nodePos_zero, prologueOf, if_neg hf, ht]
    rfl

/-- The prologue brings the lowered program in step with the interpreter. -/
theorem Lowering.start (ctx : IrContext regmap) (h : Lowering insns regmap flags pcToBb nodes ir)
    (hne : insns ≠ []) {regs : BpfReg → U64} {t : IrState} (hip : t.ip = 0)
    (hregs : ∀ r, t.regs (regmap.phys r) = regs r) :
    ∃ m t', steps (irStep ctx ir) t m = .ok t' ∧
      Aligned insns regmap nodes ir (.start regs t.stack) t' := by
  obtain ⟨m, t', hsteps, hip', hregs', hstack⟩ := h.enter ctx hne hip
  exact ⟨m, t', hsteps, fun r => (hregs' r).trans (hregs r), hstack, Nat.zero_le _,
    Bool.false_ne_true.elim, hip'⟩

/-- Going to the block of a leader leads to the nodes of the leader. -/
theorem Lowering.goto (ctx : IrContext regmap) (h : Lowering insns regmap flags pcToBb nodes ir)
    (hacc : Accepted insns) {q : ℕ} (hq : IsSet flags q) (t : IrState) :
    ∃ t₁, ir.goto t ⟨BitVec.ofNat 32 (rank flags q)⟩ = .ok t₁ ∧
      ∃ m t', steps (irStep ctx ir) t₁ m = .ok t' ∧ t'.ip = nodePos ir.frameSize nodes q ∧
        (∀ r, t'.regs (regmap.phys r) = t.regs (regmap.phys r)) ∧ t'.stack = t.stack := by
  obtain ⟨ip, hentry, hip⟩ := h.entry_eq hacc hq
  refine ⟨{ t with ip }, by rw [IrProgram.goto, hentry]; rfl, ?_⟩
  rcases hip with rfl | ⟨rfl, rfl, -⟩
  · exact ⟨0, _, rfl, rfl, fun r => rfl, rfl⟩
  · exact h.enter ctx hacc.ne_nil rfl

omit [Profile] in
/-- The nodes of `Exit` end with `ret`. -/
theorem Lowering.exit_last (h : Lowering insns regmap flags pcToBb nodes ir) {pc : ℕ}
    (hget : insns[pc]? = some .exit) :
    nodes pc = [.ret] ∨ nodes pc = [.epilogue ir.frameSize, .ret] := by
  have hns := h.lower_eq pc _ hget
  dsimp only [lowerInsn] at hns
  have hns := Except.ok.inj hns
  split_ifs at hns
  · exact Or.inr hns.symm
  · exact Or.inl hns.symm

omit [Profile] in
/-- After `Exit` the lowered program is at `ret`. -/
theorem Aligned.atRet (h : Lowering insns regmap flags pcToBb nodes ir) (hne : insns ≠ [])
    {s : InterpreterState} {t : IrState} (hal : Aligned insns regmap nodes ir s t)
    (hhalt : s.halted = true) : AtRet ir t := by
  have hget := hal.exited hhalt
  have hpc := (List.getElem?_eq_some_iff.1 hget).1
  have hip := hal.ip
  rw [if_pos hhalt] at hip
  unfold AtRet
  rcases h.exit_last hget with hn | hn <;>
  · rw [hip, h.code_getElem? hne hpc (by simp [hn]), hn]
    rfl

/-- `Exit` leads to `ret`. -/
theorem Lowering.exit (ctx : IrContext regmap) (h : Lowering insns regmap flags pcToBb nodes ir)
    (hne : insns ≠ []) {s : InterpreterState} {t : IrState}
    (hal : Aligned insns regmap nodes ir s t) (hhalt : s.halted = false)
    (hget : insns[s.pc]? = some .exit) :
    ∃ t', steps (irStep ctx ir) t 1 = .ok t' ∧
      Aligned insns regmap nodes ir { s with halted := true } t' := by
  have hpc := (List.getElem?_eq_some_iff.1 hget).1
  have hip := hal.ip
  rw [if_neg (by simp [hhalt])] at hip
  rcases h.exit_last hget with hn | hn
  · have hcode : ir.code[t.ip]? = some .ret := by
      rw [hip, h.code_getElem? hne hpc (by simp [hn]), hn]
      rfl
    refine ⟨t, irStep_of_atRet hcode, hal.regs, hal.stack, hal.pc_le, fun _ => hget, ?_⟩
    rw [if_pos rfl, hn]
    exact hip
  · have hcode : ir.code[t.ip]? = some (.epilogue ir.frameSize) := by
      rw [hip, h.code_getElem? hne hpc (by simp [hn]), hn]
      rfl
    refine ⟨_, irStep_of_getElem? hcode, fun r => ?_, hal.stack, hal.pc_le, fun _ => hget, ?_⟩
    · exact (ctx.epilogue_phys _ _ r).trans (hal.regs r)
    · rw [if_pos rfl, hn]
      exact congrArg (· + 1) hip

/-- Where the interpreter has stopped, at `Exit` or behind its last instruction, the lowered program
has. -/
theorem Lowering.stopped (ctx : IrContext regmap) (h : Lowering insns regmap flags pcToBb nodes ir)
    (hne : insns ≠ []) {s : InterpreterState} {t : IrState}
    (hal : Aligned insns regmap nodes ir s t) (he : executed insns s = none) :
    irStep ctx ir t = .ok t := by
  unfold executed at he
  split_ifs at he with hhalt
  · exact irStep_of_atRet (hal.atRet h hne hhalt)
  · have hend : s.pc = insns.length := by
      have := List.getElem?_eq_none_iff.1 he
      have := hal.pc_le
      omega
    have hip := hal.ip
    rw [if_neg hhalt, Nat.add_zero, hend] at hip
    unfold irStep
    rw [hip, h.code_end hne]
    rfl

omit [Profile] in
/-- The node of an instruction with only one. -/
theorem Aligned.code_eq (h : Lowering insns regmap flags pcToBb nodes ir) (hne : insns ≠ [])
    {s : InterpreterState} {t : IrState} (hal : Aligned insns regmap nodes ir s t)
    (hhalt : s.halted = false) {insn : Insn} (hget : insns[s.pc]? = some insn) {node : IrNode}
    (hn : nodes s.pc = [node]) : ir.code[t.ip]? = some node := by
  have hip := hal.ip
  rw [if_neg (by simp [hhalt])] at hip
  rw [hip, h.code_getElem? hne (List.getElem?_eq_some_iff.1 hget).1 (by simp [hn]), hn]
  rfl

omit [Profile] in
/-- The next instruction, on both sides. -/
theorem Aligned.of_next {s s' : InterpreterState} {t t' : IrState}
    (hal : Aligned insns regmap nodes ir s t) (hhalt : s.halted = false) {node : IrNode}
    (hn : nodes s.pc = [node]) (hlt : s.pc < insns.length)
    (hregs : ∀ r, t'.regs (regmap.phys r) = s'.regs r) (hstack : t'.stack = s'.stack)
    (hhalt' : s'.halted = false) (hpc : s'.pc = s.pc + 1) (hip : t'.ip = t.ip + 1) :
    Aligned insns regmap nodes ir s' t' := by
  have hip₀ := hal.ip
  rw [if_neg (by simp [hhalt])] at hip₀
  refine ⟨hregs, hstack, by omega, fun hc => ?_, ?_⟩
  · rw [hhalt'] at hc
    cases hc
  · rw [if_neg (by simp [hhalt']), hip, hip₀, hpc, nodePos_succ, hn]
    rfl

/-- An instruction that neither jumps nor exits is one node. -/
theorem Lowering.plain (h : Lowering insns regmap flags pcToBb nodes ir) (hacc : Accepted insns)
    (hinj : Function.Injective regmap.map) (ctx : IrContext regmap) {s : InterpreterState}
    {t : IrState} (hal : Aligned insns regmap nodes ir s t) (hhalt : s.halted = false) {insn : Insn}
    (hget : insns[s.pc]? = some insn) (hexit : insn ≠ .exit) (hoff : insn.jumpOff = none) :
    Rel (Aligned insns regmap nodes ir) ((stepInsn ctx.stackPtr s insn).map Prod.fst)
      (irStep ctx ir t) := by
  have hpc := (List.getElem?_eq_some_iff.1 hget).1
  have hlen := hacc.length_lt
  obtain ⟨node, hnode, -, hrel⟩ := execNode_rel ctx ir pcToBb hinj hal.regs hal.stack (by omega)
    hoff hexit (hacc.ne_tailCall hget)
  have hn := lowerInsn_eq_of_lowering h hget hnode
  rw [irStep_of_getElem? (hal.code_eq h hacc.ne_nil hhalt hget hn)]
  have hrel' : Rel (fun s' t' => SameEffect regmap s s' t t')
      ((stepInsn ctx.stackPtr s insn).map Prod.fst) (execNode ctx ir t node) := hrel.map_left
  refine hrel'.mono ?_
  rintro s' t' ⟨hregs, hstack, hhalt', hpc', hip'⟩
  exact hal.of_next hhalt hn hpc hregs hstack (hhalt'.trans hhalt) hpc' hip'

/-- A jump that is taken goes through the prologue, if its target is the first block. -/
theorem Lowering.jump (h : Lowering insns regmap flags pcToBb nodes ir) (hacc : Accepted insns)
    (ctx : IrContext regmap) {s : InterpreterState} {t : IrState}
    (hal : Aligned insns regmap nodes ir s t) (hhalt : s.halted = false) {insn : Insn}
    (hget : insns[s.pc]? = some insn) {off : I16} (hoff : insn.jumpOff = some off) :
    ∃ m, Rel (Aligned insns regmap nodes ir) ((stepInsn ctx.stackPtr s insn).map Prod.fst)
      (steps (irStep ctx ir) t (m + 1)) := by
  have hpc := (List.getElem?_eq_some_iff.1 hget).1
  have hlen := hacc.length_lt
  obtain ⟨q, hq, htarget, hset, hbb⟩ := h.target hacc hget hoff
  obtain ⟨node, hnode, -, hexec⟩ := execNode_of_jump ctx ir hal.regs hoff hbb
  have hn := lowerInsn_eq_of_lowering h hget hnode
  have hcode := hal.code_eq h hacc.ne_nil hhalt hget hn
  rw [stepInsn_of_jump hoff]
  cases htaken : insn.taken s.regs with
  | false =>
    refine ⟨0, ?_⟩
    rw [steps_one, irStep_of_getElem? hcode, hexec, htaken, if_neg (by simp)]
    dsimp only [branch]
    rw [if_neg (by simp), advance_of_lt (by omega)]
    have hnext : Aligned insns regmap nodes ir { s with pc := s.pc + 1 } t.next :=
      hal.of_next hhalt hn hpc hal.regs hal.stack hhalt rfl rfl
    exact hnext
  | true =>
    obtain ⟨t₁, hgoto, m, t', hsteps, hip', hregs, hstack⟩ := h.goto ctx hacc hset t
    obtain ⟨q', hq', htarget', hjump⟩ := hacc.jumpPc_eq hget hoff
    obtain rfl := htarget.unique htarget'
    have hfirst : steps (irStep ctx ir) t 1 = .ok t₁ := by
      rw [steps_one, irStep_of_getElem? hcode, hexec, htaken, if_pos rfl, hgoto]
    refine ⟨m, ?_⟩
    rw [Nat.add_comm, steps_trans hfirst hsteps]
    dsimp only [branch]
    rw [if_pos rfl, hjump, ok_bind]
    refine ⟨fun r => (hregs r).trans (hal.regs r), hstack.trans hal.stack, hq.le, fun hc => ?_, ?_⟩
    · rw [hhalt] at hc
      cases hc
    · rw [if_neg (by simp [hhalt])]
      exact hip'

/-- **One step.**  The lowered program simulates the interpreter. -/
theorem Lowering.simulates (h : Lowering insns regmap flags pcToBb nodes ir)
    (hacc : Accepted insns) (hinj : Function.Injective regmap.map) (ctx : IrContext regmap) :
    Simulates (Aligned insns regmap nodes ir) (stepState ctx.stackPtr insns) (irStep ctx ir) := by
  intro s t hal
  cases he : executed insns s with
  | none =>
    refine ⟨0, ?_⟩
    rw [stepState_of_not_executed he, steps_one, h.stopped ctx hacc.ne_nil hal he]
    exact Rel.ok hal
  | some insn =>
    obtain ⟨hhalt, hget⟩ := executed_eq_some.1 he
    rw [stepState_of_executed he]
    by_cases hexit : insn = .exit
    · subst hexit
      obtain ⟨t', ht', hal'⟩ := h.exit ctx hacc.ne_nil hal hhalt hget
      refine ⟨0, ?_⟩
      rw [ht']
      exact hal'
    cases hoff : insn.jumpOff with
    | none =>
      refine ⟨0, ?_⟩
      rw [steps_one]
      exact h.plain hacc hinj ctx hal hhalt hget hexit hoff
    | some off => exact h.jump hacc ctx hal hhalt hget hoff

/-- After any number of steps of the interpreter the lowered program has come to the same
instruction. -/
theorem Lowering.run (h : Lowering insns regmap flags pcToBb nodes ir) (hacc : Accepted insns)
    (hinj : Function.Injective regmap.map) (ctx : IrContext regmap) {regs : BpfReg → U64}
    {t : IrState} (hip : t.ip = 0) (hregs : ∀ r, t.regs (regmap.phys r) = regs r) {k : ℕ}
    {s : InterpreterState} (hs : stepN ctx.stackPtr insns (.start regs t.stack) k = .ok s) :
    ∃ m t', steps (irStep ctx ir) t m = .ok t' ∧ Aligned insns regmap nodes ir s t' := by
  obtain ⟨m₀, t₀, hsteps₀, hal₀⟩ := h.start ctx hacc.ne_nil hip hregs
  obtain ⟨m, t', ht', hal⟩ := (h.simulates hacc hinj ctx).of_steps hal₀ hs
  exact ⟨m₀ + m, t', steps_trans hsteps₀ ht', hal⟩

omit [Profile] in
/-- Only `Exit` has `ret` as its first node. -/
theorem lowerInsn_ret {frameSize : U16} {pc : ℕ} {insn : Insn} {ns : List IrNode}
    (h : lowerInsn regmap pcToBb frameSize pc insn = .ok ns) (hret : ns[0]? = some .ret) :
    insn = .exit := by
  cases insn with
  | exit => rfl
  | ja | jmpCond | jmpCond32 =>
    obtain ⟨target, -, h⟩ := bind_eq_ok.1 h
    cases h
    cases hret
  | _ =>
    cases h
    cases hret

/-- At `ret` the interpreter is at `Exit`; its next step halts. -/
theorem Aligned.exited_of_atRet (h : Lowering insns regmap flags pcToBb nodes ir)
    (hacc : Accepted insns) {s : InterpreterState} {t : IrState}
    (hal : Aligned insns regmap nodes ir s t) (hret : AtRet ir t) (stackPtr : U64) :
    ∃ s', stepState stackPtr insns s = .ok s' ∧ Exited insns s' ∧ s'.regs = s.regs := by
  have hne := hacc.ne_nil
  cases hhalt : s.halted with
  | true =>
    have hnone : executed insns s = none := if_pos hhalt
    exact ⟨s, stepState_of_not_executed hnone, ⟨hhalt, hal.exited hhalt⟩, rfl⟩
  | false =>
    have hip := hal.ip
    rw [if_neg (by simp [hhalt]), Nat.add_zero] at hip
    unfold AtRet at hret
    rw [hip] at hret
    have hpc : s.pc < insns.length := by
      by_contra hge
      have hend : s.pc = insns.length := le_antisymm hal.pc_le (not_lt.1 hge)
      rw [hend, h.code_end hne] at hret
      cases hret
    have hget := List.getElem?_eq_getElem hpc
    obtain ⟨ns, hlower, hns⟩ := lowerInsn_ok hacc h.pcToBb_eq regmap ir.frameSize hget
    obtain rfl := lowerInsn_eq_of_lowering h hget hlower
    have hfirst := h.code_getElem? hne hpc (List.length_pos_iff.2 hns)
    rw [Nat.add_zero, hret] at hfirst
    have hexit := lowerInsn_ret hlower hfirst.symm
    rw [hexit] at hget
    refine ⟨{ s with halted := true }, ?_, ⟨rfl, hget⟩, rfl⟩
    rw [stepState_of_executed (executed_eq_some.2 ⟨hhalt, hget⟩)]
    rfl

/-- **Lowering preserves meaning.**  Start the interpreter and the lowered program with the same
registers and stack.  After any number of interpreter steps the lowered program has come to the
nodes of the current instruction with the same registers and stack; one run panics if the other
does; and the lowered program comes to `ret` with `v` in `R0` if and only if the interpreter
executes an `Exit` with `v` in `R0`. -/
theorem lowerToIr_preserves {raw : List RawInsn} {n : ℕ} (hdec : decodeProgram raw = .ok insns)
    (hver : verifyProgram insns = .ok n) (hinj : Function.Injective regmap.map)
    (ctx : IrContext regmap) (regs : BpfReg → U64) {t : IrState} (hip : t.ip = 0)
    (hregs : ∀ r, t.regs (regmap.phys r) = regs r) :
    ∃ ir pcToBb nodes, lowerToIr insns regmap = .ok ir ∧
      (∀ pc insn, insns[pc]? = some insn →
        lowerInsn regmap pcToBb ir.frameSize pc insn = .ok (nodes pc)) ∧
      ir.code = prologueOf ir.frameSize ++ spanNodes nodes 0 insns.length ∧
      (∀ k s, stepN ctx.stackPtr insns (.start regs t.stack) k = .ok s →
        ∃ m t', steps (irStep ctx ir) t m = .ok t' ∧ Aligned insns regmap nodes ir s t') ∧
      ((∃ k, stepN ctx.stackPtr insns (.start regs t.stack) k = panic) ↔
        ∃ m, steps (irStep ctx ir) t m = panic) ∧
      ∀ v, (∃ k s, stepN ctx.stackPtr insns (.start regs t.stack) k = .ok s ∧ Exited insns s ∧
          s.regs BpfReg.r0 = v) ↔
        ∃ m t', steps (irStep ctx ir) t m = .ok t' ∧ AtRet ir t' ∧
          t'.regs (regmap.phys BpfReg.r0) = v := by
  have hacc := accepted_of_ok hdec hver
  have hne := hacc.ne_nil
  obtain ⟨ir, hir, flags, pcToBb, nodes, h⟩ := (lowerToIr_meets hacc regmap).exists_ok
  have hsim := h.simulates hacc hinj ctx
  obtain ⟨m₀, t₀, hsteps₀, hal₀⟩ := h.start ctx hne hip hregs
  refine ⟨ir, pcToBb, nodes, hir, h.lower_eq, h.flatMap_nodes hne, ?_, ⟨?_, ?_⟩,
    fun v => ⟨?_, ?_⟩⟩
  · intro k s hs
    exact h.run hacc hinj ctx hip hregs hs
  · rintro ⟨k, hk⟩
    obtain ⟨m, hm⟩ := hsim.error_of_steps hal₀ hk
    exact ⟨m₀ + m, by rw [steps_add, hsteps₀, ok_bind, hm]; rfl⟩
  · rintro ⟨m, hm⟩
    -- a run that panics later panics after the prologue
    have hm' := steps_of_error hm m₀
    rw [Nat.add_comm, steps_add, hsteps₀, ok_bind] at hm'
    exact ⟨m, hsim.of_error hal₀ hm'⟩
  · rintro ⟨k, s, hs, hexit, rfl⟩
    obtain ⟨m, t', ht', hal⟩ := h.run hacc hinj ctx hip hregs hs
    exact ⟨m, t', ht', hal.atRet h hne hexit.1, hal.regs BpfReg.r0⟩
  · rintro ⟨m, t', ht', hret, rfl⟩
    have hstop : irStep ctx ir t' = .ok t' := irStep_of_atRet hret
    have hm' := steps_of_stopped ht' hstop m₀
    rw [Nat.add_comm, steps_add, hsteps₀, ok_bind] at hm'
    obtain ⟨s, hs, hal⟩ := hsim.of_stopped hal₀ hm' hstop
    obtain ⟨s', hs', hexit, hr⟩ := hal.exited_of_atRet h hacc hret ctx.stackPtr
    refine ⟨m + 1, s', steps_succ_eq_ok.2 ⟨s, hs, hs'⟩, hexit, ?_⟩
    rw [hr]
    exact (hal.regs BpfReg.r0).symm

omit [Profile] in
theorem aarch64Regmap_injective : Function.Injective aarch64Regmap.map := by
  decide

omit [Profile] in
/-- `lowerToIr_preserves` at the program `jumpOverLddw`, for AArch64: the lowered program comes to
`ret` with 0 in `R0`. -/
theorem lowerToIr_preserves_jumpOverLddw :
    ∃ ir, @lowerToIr debug jumpOverLddwInsns aarch64Regmap = .ok ir ∧
      ∃ m t', steps (@irStep debug _ (.plain aarch64Regmap 0) ir) ⟨0, fun _ => 0, fun _ => 0⟩ m =
          .ok t' ∧ AtRet ir t' ∧ t'.regs (aarch64Regmap.phys BpfReg.r0) = 0 := by
  have hok : verifyProgram jumpOverLddwInsns = .ok 3 := rfl
  obtain ⟨ir, -, -, hir, -, -, -, -, hret⟩ := @lowerToIr_preserves _ aarch64Regmap debug _ _
    decode_jumpOverLddw hok aarch64Regmap_injective (.plain aarch64Regmap 0) (fun _ => 0)
    ⟨0, fun _ => 0, fun _ => 0⟩ rfl fun _ => rfl
  exact ⟨ir, hir, (hret 0).1 ⟨3, _, rfl, ⟨rfl, rfl⟩, rfl⟩⟩

end NVMirror
