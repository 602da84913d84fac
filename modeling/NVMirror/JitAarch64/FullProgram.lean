import NVMirror.JitAarch64.FullWords
import NVMirror.JitAarch64.Program
import NVMirror.JitAarch64.Restore
import NVMirror.JitRegalloc.StackRuns

/-!
# Runs of the full machine through the code of a program

In a program that passed the verifier no node changes the stack pointer or the register of `R10`,
except for prologues, epilogues, and stores of `R10` that are encoded as loads.

* `leaves_alters`, `leaves_writes`, `leaves_branch`: the machine goes from one node to the next.
* `leaves_node`: the nodes of all instructions but `Exit`.
-/

namespace NVMirror.Aarch64.Full

open Rust Leaders Temporal

variable {ir : IrProgram} {W : IrNode → List U32} {ws : List U32} {j : ℕ} {node : IrNode}
  {limit : ℕ} {E : Env → Prop} {I : Cpu → Prop} {R : Machine → Machine → Prop} {c : Cpu}

/-- `I` holds at one of the words of node `j`. -/
def Inside (W : IrNode → List U32) (ir : IrProgram) (j : ℕ) (I : Cpu → Prop) (m : Machine) : Prop :=
  AtNode W ir.code j m.pc ∧ I m.toCpu

/-- The machine is at the first word of a node that may follow node `j`, and `I` holds. -/
def Follows (W : IrNode → List U32) (ir : IrProgram) (node : IrNode) (j : ℕ) (I : Cpu → Prop)
    (m : Machine) : Prop :=
  ∃ j' c', ir.Next node j j' ∧ I c' ∧ m = atNode Machine.mk W ir j' c'

section

variable (himg : Image W branchOf patch ir ws) (hR : ∀ m m', R m m' → Moves E (ofWords ws) m m')
  (hj : ir.code[j]? = some node)

include himg hR hj

/-- **Words that keep the registers on which `I` depends.** -/
theorem leaves_alters (hbranch : branchOf node = none) (hnext : ir.Next node j (j + 1))
    (hne : W node ≠ []) {S : Set Reg} (h : Alters E (W node) S)
    (hI : ∀ c c' : Cpu, (∀ r, r ∉ S → c'.x r = c.x r) → I c → I c') (hc : I c) :
    Leaves R (Inside W ir j I) (Follows W ir node j I) (atNode Machine.mk W ir j c) := by
  refine leaves_words (List.length_pos_iff.2 hne) (I := I)
    (fun k hk c hc => ⟨atNode_word hj hk, hc⟩) (fun k hk c u hc hu => ?_) hc
  have hword := List.getElem?_eq_getElem hk
  have hfetch := himg.fetch hj (List.append_nil _).symm (Or.inl hbranch) hword
  obtain ⟨env, i, hE, hdecode, rfl⟩ := (hR _ _ hu).eq hfetch
  obtain ⟨hkeep, hdisp⟩ := h _ (List.getElem_mem hk) i hdecode env
    (4 * (wordPos W ir.code j : ℤ) + 4 * (k : ℤ)) c hE
  have hI' := hI _ _ hkeep hc
  have hpos : 4 * (wordPos W ir.code j : ℤ) + 4 * (k : ℤ) + i.displacement c =
      4 * (wordPos W ir.code j : ℤ) + 4 * ((k + 1 : ℕ) : ℤ) := by
    rw [hdisp]
    push_cast
    ring
  rw [hpos]
  by_cases hlast : k + 1 < (W node).length
  · exact Or.inr ⟨k + 1, hlast, _, hI', rfl⟩
  · refine Or.inl ⟨j + 1, _, hnext, hI', ?_⟩
    have hlen : k + 1 = (W node).length := by omega
    rw [atNode, wordPos_succ hj, hlen]
    push_cast
    rw [mul_add]

/-- **Words that write a register.** -/
theorem leaves_writes (hbranch : branchOf node = none) (hnext : ir.Next node j (j + 1))
    (hne : W node ≠ []) {S : Set Reg} {d : Reg} {v : U64} (h : Writes (W node) S c d v)
    (hI : ∀ c', SameOutside S c c' → I c') :
    Leaves R (fun m => AtNode W ir.code j m.pc) (Follows W ir node j I)
      (atNode Machine.mk W ir j c) := by
  obtain ⟨c', hline, -, hsame⟩ := h
  have hcode := codeAt_node himg hj (List.append_nil (W node)).symm (Or.inl hbranch)
  refine leaves_line hR hline hcode hne (fun k c hk => atNode_word hj hk)
    ⟨j + 1, c', hnext, hI c' hsame, ?_⟩
  rw [atNode, wordPos_succ hj]
  push_cast
  rw [mul_add]

/-- **A branch.** -/
theorem leaves_branch {t : BasicBlockId} {k : Bool} (hbranch : branchOf node = some (t, k))
    (hnext : ∀ j', ir.Next node j j' ↔ ir.entry t = some j' ∨ k = true ∧ j' = j + 1)
    {pre : List U32} {w : U32} (hW : W node = pre ++ [w]) {c' : Cpu} (hline : Line pre c c')
    (hpatch : ∀ (d : ℤ) (f : U32 → U32), patch k (4 * d) = some f → ∃ i,
      Aarch64.decode (f w) = some i ∧ i.exec c' = c' ∧
        (i.displacement c' = 4 * d ∨ k = true ∧ i.displacement c' = 4)) (hI : I c') :
    Leaves R (fun m => AtNode W ir.code j m.pc) (Follows W ir node j I)
      (atNode Machine.mk W ir j c) := by
  have hlen : (W node).length = pre.length + 1 := by
    rw [hW, List.length_append, List.length_singleton]
  have hcode := codeAt_node himg hj hW (Or.inr (List.cons_ne_nil w []))
  obtain ⟨ip, f, hentry, hf, hfetch⟩ := himg.fetch_branch hj hbranch hW
  obtain ⟨i, hdecode, hexec, hdisp⟩ := hpatch _ f hf
  have huntil : Until R (fun m => AtNode W ir.code j m.pc)
      (fun m => m = ⟨c', 4 * (wordPos W ir.code j : ℤ) + 4 * (pre.length : ℤ)⟩)
      (atNode Machine.mk W ir j c) :=
    until_line hR hline hcode (fun k c hk => atNode_word hj (by omega)) rfl
  refine huntil.leaves ?_
  rintro m rfl
  refine ⟨atNode_word hj (by omega), fun u hu => Until.now ?_⟩
  rw [(hR _ _ hu).eq_base hfetch hdecode, hexec]
  rcases hdisp with hdisp | ⟨rfl, hdisp⟩
  · refine ⟨ip, c', (hnext ip).2 (Or.inl hentry), hI, ?_⟩
    rw [hdisp, atNode]
    congr 1
    push_cast
    ring
  · refine ⟨j + 1, c', (hnext (j + 1)).2 (Or.inr ⟨rfl, rfl⟩), hI, ?_⟩
    rw [hdisp, atNode, wordPos_succ hj, hlen]
    congr 1
    push_cast
    ring

end

/-! ### The nodes of a program -/

/-- No word of the node loads the register of `R10` instead of storing it. -/
def StoresR10 (node : IrNode) : Prop :=
  ∀ width base off, node = .store width base (aarch64Regmap.phys BpfReg.r10) off →
    ∀ w ∈ emitStoreNode width base (aarch64Regmap.phys BpfReg.r10) off, ∀ i, decode w = some i →
      i.loads = false

/-- The machine leaves the node; `I` holds where it accesses memory, and behind it. -/
def LeavesNode (R : Machine → Machine → Prop) (W : IrNode → List U32) (ir : IrProgram)
    (node : IrNode) (j : ℕ) (I : Cpu → Prop) (c : Cpu) : Prop :=
  Leaves R (fun m => AtNode W ir.code j m.pc ∧ (node.memAccess ≠ none → I m.toCpu))
    (Follows W ir node j I) (atNode Machine.mk W ir j c)

/-- `I` depends on the stack pointer and the register of `R10` only. -/
def KeptByOthers (I : Cpu → Prop) : Prop :=
  ∀ c c' : Cpu, c'.x 31 = c.x 31 → c'.x 25 = c.x 25 → I c → I c'

theorem KeptByOthers.keep (hI : KeptByOthers I) {S : Set Reg} (h31 : 31 ∉ S) (h25 : 25 ∉ S)
    (c c' : Cpu) (hsame : ∀ r, r ∉ S → c'.x r = c.x r) : I c → I c' :=
  hI c c' (hsame 31 h31) (hsame 25 h25)

theorem xreg_ne_r10 : ∀ d : BpfReg, d ≠ BpfReg.r10 → (25 : Reg) ≠ xreg d := by
  decide

theorem xreg_ne_sp (d : BpfReg) : (31 : Reg) ≠ xreg d := (xreg_free d).2.2.2.2.symm

section

variable (himg : Image W branchOf patch ir ws) (hR : ∀ m m', R m m' → Moves E (ofWords ws) m m')
  (hI : KeptByOthers I) (hc : I c)

include himg hR hI hc

/-- Words one by one. -/
theorem leavesNode_alters (hj : ir.code[j]? = some node) (hbranch : branchOf node = none)
    (hnext : ir.Next node j (j + 1)) (hne : W node ≠ []) {S : Set Reg} (h : Alters E (W node) S)
    (h31 : 31 ∉ S) (h25 : 25 ∉ S) : LeavesNode R W ir node j I c :=
  (leaves_alters himg hR hj hbranch hnext hne h (hI.keep h31 h25) hc).mono
    (fun _ hm => ⟨hm.1, fun _ => hm.2⟩) fun _ hm => hm

/-- Words with a result. -/
theorem leavesNode_writes (hj : ir.code[j]? = some node) (hno : node.memAccess = none)
    (hbranch : branchOf node = none) (hnext : ir.Next node j (j + 1)) (hne : W node ≠ [])
    {d : BpfReg} (hd : d ≠ BpfReg.r10) {v : U64}
    (h : Writes (W node) {xreg d, 9, 12} c (xreg d) v) : LeavesNode R W ir node j I c := by
  refine (leaves_writes himg hR hj hbranch hnext hne h fun c' hsame => ?_).mono
    (fun m hm => ⟨hm, fun hacc => absurd hno hacc⟩) fun _ hm => hm
  exact hI.keep (notMem_written (xreg_ne_sp d) (by decide) (by decide))
    (notMem_written (xreg_ne_r10 d hd) (by decide) (by decide)) c c' hsame.x hc

variable [Profile] (hem : Emission emitNode ir.code W branchOf limit)

include hem

/-- Arithmetic on 64 bits. -/
theorem leavesNode_alu64 {op : AluOp} {d : BpfReg} (hd : d ≠ BpfReg.r10) {src : Source}
    (hj : ir.code[j]? =
      some (.alu64 op (aarch64Regmap.phys d) (aarch64Regmap.translateSource src))) :
    LeavesNode R W ir (.alu64 op (aarch64Regmap.phys d) (aarch64Regmap.translateSource src)) j I
      c := by
  obtain ⟨h9, h12, -, -, h31⟩ := xreg_free d
  obtain ⟨ws', hws, hw⟩ := writes_alu64 (ε := AArch64EmitError) op h9 h12 h31
    (freeOperand_translateSource src)
  rw [← phys_eq] at hws
  have hW := words_eq hem hj fun e => by
    rw [emitNode, hws]
    exact congrArg Except.ok (e.emitWords_eq ws')
  obtain ⟨ws'', hws', hpos, -⟩ := emitAlu64Node_ok (ε := AArch64EmitError) op
    (aarch64Regmap.phys d) (aarch64Regmap.translateSource src)
  cases hws.symm.trans hws'
  rw [← hW] at hpos hw
  exact leavesNode_writes himg hR hI hc hj rfl rfl rfl (List.length_pos_iff.1 hpos) hd (hw c)

/-- Arithmetic on 32 bits. -/
theorem leavesNode_alu32 {op : AluOp} {d : BpfReg} (hd : d ≠ BpfReg.r10) {src : Source}
    (hj : ir.code[j]? =
      some (.alu32 op (aarch64Regmap.phys d) (aarch64Regmap.translateSource src))) :
    LeavesNode R W ir (.alu32 op (aarch64Regmap.phys d) (aarch64Regmap.translateSource src)) j I
      c := by
  obtain ⟨h9, h12, -, -, h31⟩ := xreg_free d
  have hw := writes_alu32 op h9 h12 h31 (freeOperand_translateSource src) c
  have hpos := (length_emitAlu32Node op (physOf (xreg d)) (aarch64Regmap.translateSource src)).1
  have hW := words_eq hem hj fun e => congrArg Except.ok (e.emitWords_eq _)
  rw [← phys_eq, ← hW] at hw hpos
  exact leavesNode_writes himg hR hI hc hj rfl rfl rfl (List.length_pos_iff.1 hpos) hd hw

/-- Constants. -/
theorem leavesNode_loadImm64 {d : BpfReg} (hd : d ≠ BpfReg.r10) {imm : U64}
    (hj : ir.code[j]? = some (.loadImm64 (aarch64Regmap.phys d) imm)) :
    LeavesNode R W ir (.loadImm64 (aarch64Regmap.phys d) imm) j I c := by
  have hw := (writes_loadImm64 (xreg_free d).2.2.2.2 imm c).mono
    (by simp : ({xreg d} : Set Reg) ⊆ {xreg d, 9, 12})
  have hW := words_eq hem hj fun e => congrArg Except.ok (e.emitWords_eq _)
  rw [← phys_eq, ← hW] at hw
  refine leavesNode_writes himg hR hI hc hj rfl rfl rfl ?_ hd hw
  rw [hW, emitLoadImm64_eq]
  exact List.cons_ne_nil _ _

/-- Stores: one of `R10` may not be encoded as a load. -/
theorem leavesNode_store {width : MemWidth} {d s : BpfReg} {off : I16}
    (hj : ir.code[j]? =
      some (.store width (aarch64Regmap.phys d) (aarch64Regmap.phys s) off))
    (hstore : StoresR10 (.store width (aarch64Regmap.phys d) (aarch64Regmap.phys s) off)) :
    LeavesNode R W ir (.store width (aarch64Regmap.phys d) (aarch64Regmap.phys s) off) j I c := by
  have hW := words_eq hem hj fun e => congrArg Except.ok (e.emitWords_eq _)
  have hne : W (.store width (aarch64Regmap.phys d) (aarch64Regmap.phys s) off) ≠ [] := by
    rw [hW]
    cases width <;> exact List.cons_ne_nil _ _
  by_cases hs : s = BpfReg.r10
  · subst hs
    refine leavesNode_alters himg hR hI hc hj rfl rfl hne (S := ∅) ?_ (Set.notMem_empty _)
      (Set.notMem_empty _)
    have hno := hstore width _ off rfl
    rw [phys_eq, phys_eq] at hno
    rw [hW, phys_eq, phys_eq]
    exact alters_store width (xreg d) (xreg BpfReg.r10) off (Or.inr hno)
  · refine leavesNode_alters himg hR hI hc hj rfl rfl hne (S := {xreg s}) ?_ (xreg_ne_sp s)
      (xreg_ne_r10 s hs)
    rw [hW, phys_eq, phys_eq]
    exact alters_store width (xreg d) (xreg s) off (Or.inl rfl)

/-- Comparison and branch. -/
theorem leavesNode_branch {op : JmpOp} {l : BpfReg} {src : Source} {is32bit : Bool}
    {t : BasicBlockId}
    (hj : ir.code[j]? = some
      (.branch ⟨op, aarch64Regmap.phys l, aarch64Regmap.translateSource src, is32bit⟩ t)) :
    LeavesNode R W ir
      (.branch ⟨op, aarch64Regmap.phys l, aarch64Regmap.translateSource src, is32bit⟩ t) j I c := by
  have hW := words_eq hem hj fun e => congrArg Except.ok (emitBranchNode_eq e _ t)
  rw [branchWords_eq] at hW
  obtain ⟨c', hline, hsame, -⟩ := @compare_line ⟨op, _, _, is32bit⟩ _ (phys_eq l)
    (xreg_free l).1 (freeOperand_translateSource src).reg c
  refine (leaves_branch himg hR hj rfl (fun j' => ?_) hW hline (fun d f hf => ?_)
    (hI.keep (S := {9}) (by decide) (by decide) c c' hsame.x hc)).mono
    (fun m hm => ⟨hm, fun hno => absurd rfl hno⟩) fun _ hm => hm
  · simp only [IrProgram.Next, true_and]
  · obtain ⟨imm19, hdecode, rfl⟩ := patch_conditional op hf
    refine ⟨_, hdecode, rfl, ?_⟩
    dsimp only [Aarch64.Instr.displacement]
    split_ifs
    · exact Or.inl rfl
    · exact Or.inr ⟨rfl, rfl⟩

omit hI in
/-- Jumps. -/
theorem leavesNode_jump {t : BasicBlockId} (hj : ir.code[j]? = some (.jump t)) :
    LeavesNode R W ir (.jump t) j I c := by
  have hW : W (.jump t) = [] ++ [bImm 0] := words_eq hem hj fun e =>
    congrArg Except.ok (e.pushRelocation_emit32 (bImm 0) t false)
  refine (leaves_branch himg hR hj rfl (fun j' => ?_) hW (Line.nil c) (fun d f hf => ?_) hc).mono
    (fun m hm => ⟨hm, fun hno => absurd rfl hno⟩) fun _ hm => hm
  · simp [IrProgram.Next]
  · obtain ⟨imm26, hdecode, rfl⟩ := patch_unconditional hf (bImm 0)
    exact ⟨_, hdecode, rfl, Or.inl rfl⟩

end

variable [Profile] {insns : List Insn} {flags : List Bool} {pcToBb : List BasicBlockId}
  {nodes : ℕ → List IrNode}

/-- **The nodes of an instruction** keep what depends on the stack pointer and the register of `R10`
only. -/
theorem leaves_node (h : Lowering insns aarch64Regmap flags pcToBb nodes ir)
    (hacc : Accepted insns) (hem : Emission emitNode ir.code W branchOf limit)
    (himg : Image W branchOf patch ir ws) (hE : ∀ env, E env → env.CallsReturn)
    (hR : ∀ m m', R m m' → Moves E (ofWords ws) m m') {pc : ℕ} {insn : Insn}
    (hget : insns[pc]? = some insn) (hexit : insn ≠ .exit) (hns : nodes pc = [node])
    (hj : ir.code[j]? = some node) (hstore : StoresR10 node) (hI : KeptByOthers I) (hc : I c) :
    W node = [] ∨ LeavesNode R W ir node j I c := by
  have h10 := hacc.not_writes hget
  have hlow := h.lower_eq pc insn hget
  rw [hns] at hlow
  cases insn with
  | alu64 op d src =>
    cases hlow
    exact Or.inr (leavesNode_alu64 himg hR hI hc hem (Ne.symm h10) hj)
  | alu32 op d src =>
    cases hlow
    exact Or.inr (leavesNode_alu32 himg hR hI hc hem (Ne.symm h10) hj)
  | loadImm64 d imm =>
    cases hlow
    exact Or.inr (leavesNode_loadImm64 himg hR hI hc hem (Ne.symm h10) hj)
  | endian toBe width d =>
    cases hlow
    have hW := words_eq hem hj fun e => congrArg Except.ok (e.emitWords_eq _)
    by_cases hnil : W (.endian toBe width (aarch64Regmap.phys d)) = []
    · exact Or.inl hnil
    · refine Or.inr (leavesNode_alters himg hR hI hc hj rfl rfl hnil (S := {xreg d}) ?_
        (xreg_ne_sp d) (xreg_ne_r10 d (Ne.symm h10)))
      rw [hW, phys_eq]
      exact alters_endian toBe width
  | load width d s off =>
    cases hlow
    have hW := words_eq hem hj fun e => congrArg Except.ok (e.emitWords_eq _)
    refine Or.inr (leavesNode_alters himg hR hI hc hj rfl rfl ?_ (S := {xreg d}) ?_ (xreg_ne_sp d)
      (xreg_ne_r10 d (Ne.symm h10)))
    · rw [hW]
      cases width <;> exact List.cons_ne_nil _ _
    · rw [hW, phys_eq, phys_eq]
      exact alters_load width (xreg d) (xreg s) off
  | storeReg width d s off =>
    cases hlow
    exact Or.inr (leavesNode_store himg hR hI hc hem hj hstore)
  | storeImm width d off imm =>
    cases hlow
    have hW := words_eq hem hj fun e => congrArg Except.ok (e.emitWords_eq _)
    refine Or.inr (leavesNode_alters himg hR hI hc hj rfl rfl ?_ (S := {9}) ?_ (by decide)
      (by decide))
    · rw [hW, emitLoadImm64_eq]
      exact List.cons_ne_nil _ _
    · rw [hW, phys_eq]
      exact (alters_loadImm64 9 _).append (alters_store width (xreg d) 9 off (Or.inl rfl))
  | atomic width op d s off =>
    cases hlow
    have hW := words_eq hem hj fun e => congrArg Except.ok (e.emitWords_eq _)
    refine Or.inr (leavesNode_alters himg hR hI hc hj rfl rfl ?_ (S := {9, 0}) ?_ (by decide)
      (by decide))
    · rw [hW]
      simp [emitAtomicNode]
    · rw [hW, phys_eq, phys_eq]
      exact alters_atomic op (xreg d) (xreg s) off
  | call funcId =>
    cases hlow
    have hW := words_eq hem hj fun e => congrArg Except.ok (e.emit32_eq _)
    refine Or.inr (leavesNode_alters himg hR hI hc hj rfl rfl ?_ (S := {r | r ∉ calleeSaved}) ?_
      (by decide) (by decide))
    · rw [hW]
      exact List.cons_ne_nil _ _
    · rw [hW]
      exact alters_call hE
  | jmpCond op d src off | jmpCond32 op d src off =>
    obtain ⟨t, -, hlow⟩ := bind_eq_ok.1 hlow
    cases hlow
    exact Or.inr (leavesNode_branch himg hR hI hc hem hj)
  | ja off =>
    obtain ⟨t, -, hlow⟩ := bind_eq_ok.1 hlow
    cases hlow
    exact Or.inr (leavesNode_jump himg hR hc hem hj)
  | tailCall => exact absurd rfl (hacc.ne_tailCall hget)
  | exit => exact absurd rfl hexit

/-! ### The stack pointer -/

/-- A step in an environment in which functions give back the callee-saved registers, and not from
a store of `R10` that is encoded as a load. -/
structure CleanStep (ir : IrProgram) (code : List U8) (m m' : Machine) : Prop where
  moves : Moves Env.CallsReturn code m m'
  node : ∀ j node, ir.code[j]? = some node → m.pc = nodeOffset emitNode ir.code j → StoresR10 node

section

variable (hem : Emission emitNode ir.code W branchOf limit) (himg : Image W branchOf patch ir ws)
  (hR : ∀ m m', R m m' → Moves E (ofWords ws) m m')

include hem himg hR

/-- **A prologue**, from its second instruction on. -/
theorem until_prologue {f : U16} (hf : FrameSize f) (hj : ir.code[0]? = some (.prologue f))
    {u : Machine} (hu : R (atNode Machine.mk W ir 0 c) u) :
    Until R (fun m => 0 < m.pc ∧ AtNode W ir.code 0 m.pc)
      (fun m => ∃ c' : Cpu, (c'.x 31 = c.x 31 - BitVec.ofNat 64 f.toNat ∧ c'.x 25 = c.x 25) ∧
        m = atNode Machine.mk W ir 1 c') u := by
  have hle := hf.le
  obtain ⟨ws', hws, hline⟩ :=
    prologue_line (ε := AArch64EmitError) (show f.toNat < 2 ^ 15 by omega)
  obtain ⟨ws'', hws', hlen⟩ :=
    emitPrologue_ok (ε := AArch64EmitError) (frameNegates_of_lt (show f.toNat < 2 ^ 15 by omega))
  cases hws.symm.trans hws'
  have hW : W (.prologue f) = ws' := words_eq hem hj fun e => by
    rw [emitNode, hws]
    exact congrArg Except.ok (e.emitWords_eq ws')
  have hcode := codeAt_node himg hj (List.append_nil _).symm (Or.inl rfl)
  rw [hW] at hcode
  obtain ⟨w, rest, rfl⟩ := List.exists_cons_of_length_eq_add_one hlen
  cases hline c with
  | @cons _ i _ _ _ hdecode hstraight hrest =>
    have hfetch : fetchU32 (ofWords ws) (4 * (wordPos W ir.code 0 : ℤ)) = some w := by
      have h0 := hcode 0 w rfl
      rwa [Nat.cast_zero, mul_zero, add_zero] at h0
    have hnext : ∀ k : ℕ, 4 * (wordPos W ir.code 0 : ℤ) + 4 + 4 * (k : ℤ) =
        4 * (wordPos W ir.code 0 : ℤ) + 4 * ((k + 1 : ℕ) : ℤ) := by
      intro k
      push_cast
      ring
    have hrestlen : (W (.prologue f)).length = rest.length + 1 := by rw [hW, List.length_cons]
    rw [(hR _ _ hu).eq_base hfetch hdecode, Aarch64.Instr.displacement_of_isStraight hstraight]
    refine until_line hR hrest (fun k w' hk => ?_) (fun k c hk => ⟨?_, ?_⟩)
      ⟨afterPrologue f c, ⟨?_, rfl⟩, ?_⟩
    · rw [hnext]
      exact hcode (k + 1) w' hk
    · dsimp only
      omega
    · rw [hnext]
      exact atNode_word hj (by omega)
    · rw [afterPrologue_x_sp, pairOffset_neg hf]
      exact (BitVec.sub_eq_add_neg _ _).symm
    · have hsucc : wordPos W ir.code 1 = wordPos W ir.code 0 + (rest.length + 1) := by
        rw [← hrestlen]
        exact wordPos_succ hj
      rw [hnext, atNode, hsucc]
      congr 1
      push_cast
      ring

/-- **An epilogue.** -/
theorem leaves_epilogue {f : U16} (hj : ir.code[j]? = some (.epilogue f)) :
    Leaves R (fun m => AtNode W ir.code j m.pc)
      (fun m => ∃ c', m = atNode Machine.mk W ir (j + 1) c') (atNode Machine.mk W ir j c) := by
  obtain ⟨c', hline, -⟩ := epilogue_line f c
  have hW : W (.epilogue f) = emitEpilogue f := words_eq hem hj fun e =>
    congrArg Except.ok (e.emitWords_eq _)
  rw [← hW] at hline
  have hcode := codeAt_node himg hj (List.append_nil _).symm (Or.inl rfl)
  refine leaves_line hR hline hcode ?_ (fun k c hk => atNode_word hj hk) ⟨c', ?_⟩
  · rw [hW]
    exact List.cons_ne_nil _ _
  · rw [atNode, wordPos_succ hj]
    push_cast
    rw [mul_add]

/-- A return moves the result and stays at `RET`. -/
theorem leaves_ret (hj : ir.code[j]? = some .ret) (P : Machine → Prop) :
    Leaves R (fun m => AtNode W ir.code j m.pc) P (atNode Machine.mk W ir j c) := by
  have hW : W .ret = [movXReg 0 7, ret] := words_eq hem hj fun e =>
    congrArg Except.ok (e.emitWords_eq _)
  have hcode := codeAt_node himg hj (hW.trans (List.append_nil _).symm) (Or.inl rfl)
  have hmov : Aarch64.decode (movXReg 0 7) = some (.data .orr true 0 31 7) := by decide
  have hret : Aarch64.decode ret = some (.ret 30) := by decide
  refine leaves_words (n := 2) (by decide) (I := fun _ => True)
    (fun k hk c _ => atNode_word hj (by rw [hW]; exact hk)) (fun k hk c u _ hu => ?_) trivial
  refine Or.inr ⟨1, by decide, ?_⟩
  match k, hk with
  | 0, _ =>
    rw [(hR _ _ hu).eq_base (hcode 0 _ rfl) hmov]
    exact ⟨_, trivial, rfl⟩
  | 1, _ =>
    rw [(hR _ _ hu).eq_base (hcode 1 _ rfl) hret]
    exact ⟨c, trivial, congrArg (Machine.mk c) (add_zero _)⟩

omit hem [Profile] in
/-- Behind the last node the machine stays. -/
theorem leaves_stop (hj : ir.code[j]? = none) (P : Machine → Prop) :
    Leaves R (fun m => m.pc = 4 * (wordPos W ir.code j : ℤ)) P (atNode Machine.mk W ir j c) := by
  have hfetch := himg.fetch_end hj
  refine Leaves.of_stays rfl fun u hu => ?_
  obtain ⟨env, -, hstep⟩ := hR _ _ hu
  unfold step at hstep
  rw [atNode, hfetch] at hstep
  exact (Except.ok.inj hstep).symm

end

/-- **Clean steps** keep the stack. -/
theorem keepsStack (h : Lowering insns aarch64Regmap flags pcToBb nodes ir) (hacc : Accepted insns)
    (hem : Emission emitNode ir.code W branchOf limit) (himg : Image W branchOf patch ir ws) :
    KeepsStack Machine.mk Machine.pc Machine.toCpu (fun c => c.x 31) (fun c => c.x 25)
      (CleanStep ir (ofWords ws)) W ir insns nodes where
  pcOf_mk _ _ := rfl
  prologue_ne hj := by
    have hle := h.frameSize.le
    obtain ⟨ws', hws, hlen⟩ := emitPrologue_ok (ε := AArch64EmitError)
      (frameNegates_of_lt (show ir.frameSize.toNat < 2 ^ 15 by omega))
    have hW : W (.prologue ir.frameSize) = ws' := words_eq hem hj fun e => by
      rw [emitNode, hws]
      exact congrArg Except.ok (e.emitWords_eq ws')
    rw [hW]
    rintro rfl
    cases hlen
  prologue _ hj _ _ hu := until_prologue hem himg (fun _ _ hm => hm.moves) h.frameSize hj hu
  node := by
    intro pc insn node hget hexit hns j hj c
    by_cases hgood : StoresR10 node
    · exact leaves_node h hacc hem himg (fun _ hE => hE) (fun _ _ hm => hm.moves) hget hexit hns hj
        hgood (I := fun c' => c'.x 31 = c.x 31 ∧ c'.x 25 = c.x 25)
        (fun c₁ c₂ hsp hr h₁ => ⟨hsp.trans h₁.1, hr.trans h₁.2⟩) ⟨rfl, rfl⟩
    · -- no clean step starts here
      by_cases hnil : W node = []
      · exact Or.inl hnil
      · have hpos := List.length_pos_iff.2 hnil
        have hat := atNode_word hj hpos
        rw [Nat.cast_zero, mul_zero, add_zero] at hat
        refine Or.inr ⟨⟨hat, fun _ => ⟨rfl, rfl⟩⟩, fun u hu => absurd (hu.node j node hj ?_) hgood⟩
        rw [nodeOffset_eq hem]
        push_cast
        rfl
  epilogue _ _ hj _ := leaves_epilogue hem himg (fun _ _ hm => hm.moves) hj
  ret hj _ P := leaves_ret hem himg (fun _ _ hm => hm.moves) hj P
  stop hj _ P := leaves_stop himg (fun _ _ hm => hm.moves) hj P

end NVMirror.Aarch64.Full
