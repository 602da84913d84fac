import NVMirror.JitIr.Image
import NVMirror.JitRegalloc.FramePaths
import NVMirror.JitRiscv.Frame

/-!
# Runs through the code of a program

The machine runs through the words of one node after the other, along the paths of the lowered
program.

* `NodeKeeps`: the words of a node keep a property of the registers and memory.
* `NodeKeeps.leaves`: from such a node the machine goes to the next node, or to the target of the
  branch; `leaves_ret`, `leaves_end`: at a return, and behind the last node, it stays.
* `Computes.keeps`, `keeps_branch`: arithmetic nodes and branches change a register of the program
  and the scratch register only.
-/

namespace NVMirror.Riscv

open Rust Temporal

variable {ir : IrProgram} {W : IrNode → List U32} {ws : List U32} {j : ℕ} {node : IrNode}
  {limit : ℕ} {E : Env → Prop} {I : Cpu → Prop} {R : Machine → Machine → Prop}

/-! ### Positions -/

theorem codeAt_node (himg : Image W branchOf patch ir ws) (hj : ir.code[j]? = some node)
    {pre rest : List U32} (hW : W node = pre ++ rest) (hkeep : branchOf node = none ∨ rest ≠ []) :
    CodeAt (ofWords ws) (4 * (wordPos W ir.code j : ℤ)) pre :=
  fun _ _ hi => himg.fetch hj hW hkeep hi

/-- The words of a node are those the emitter emits. -/
theorem words_eq [Profile] (hem : Emission emitNode ir.code W branchOf limit)
    (hj : ir.code[j]? = some node) {ns : List U32}
    (hns : Emits emitNode limit node ns (branchOf node)) : W node = ns :=
  hem.words_eq (List.mem_of_getElem? hj) hns

/-! ### Nodes -/

/-- In the environments of `E`, the words of the node keep `I`. -/
inductive NodeKeeps (E : Env → Prop) (I : Cpu → Prop) (W : IrNode → List U32) : IrNode → Prop
  | words {node : IrNode} (hbranch : branchOf node = none) (hret : node ≠ .ret)
      (hne : W node ≠ []) (h : Stays E I (W node)) : NodeKeeps E I W node
  | branch {node : IrNode} {t : BasicBlockId} {k : RelocKind}
      (hbranch : branchOf node = some (t, k)) {pre : List U32} {w : U32} (hW : W node = pre ++ [w])
      (hpre : Stays E I pre)
      (hpatch : ∀ (d : ℤ) (f : U32 → U32), patch k (4 * d) = some f → ∃ i, decode (f w) = some i ∧
        i ≠ .jalr 0 1 0 ∧ ∀ env pc c, i.exec env pc c = c ∧
          (i.displacement c = 4 * d ∨ k = .branch ∧ i.displacement c = 4)) : NodeKeeps E I W node

/-- **From one node to the next.** -/
theorem NodeKeeps.leaves (h : NodeKeeps E I W node) (himg : Image W branchOf patch ir ws)
    (hR : ∀ m m', R m m' → Moves E (ofWords ws) m m') (hj : ir.code[j]? = some node)
    {Q P : Machine → Prop}
    (hQ : ∀ m, AtNode W ir.code j m.pc → I m.toCpu → ¬ AtRet (ofWords ws) m → Q m)
    (hP : ∀ (j' : ℕ) (c : Cpu), ir.Next node j j' → I c → P ⟨c, 4 * (wordPos W ir.code j' : ℤ)⟩)
    {c : Cpu} (hc : I c) : Leaves R Q P ⟨c, 4 * (wordPos W ir.code j : ℤ)⟩ := by
  cases h with
  | words hbranch hret hne h =>
    have hcode := codeAt_node himg hj (List.append_nil (W node)).symm (Or.inl hbranch)
    have hnext : ir.Next node j (j + 1) := by
      cases node with
      | ret => exact absurd rfl hret
      | jump t => cases hbranch
      | branch cond t => cases hbranch
      | _ => rfl
    refine h.leaves hR hcode hne (fun k c hk hI hno => hQ _ (atNode_word hj hk) hI hno)
      (fun c hI => ?_) hc
    have hend := hP (j + 1) c hnext hI
    rwa [wordPos_succ hj, Nat.cast_add, mul_add] at hend
  | @branch t k hbranch pre w hW hpre hpatch =>
    have hlen : (W node).length = pre.length + 1 := by
      rw [hW, List.length_append, List.length_singleton]
    have hcode := codeAt_node himg hj hW (Or.inr (List.cons_ne_nil w []))
    obtain ⟨ip, f, hentry, hf, hfetch⟩ := himg.fetch_branch hj hbranch hW
    obtain ⟨i, hdecode, hne, hexec⟩ := hpatch _ f hf
    let last : ℤ := 4 * (wordPos W ir.code j : ℤ) + 4 * (pre.length : ℤ)
    have huntil : Until R Q (fun m => ∃ c, I c ∧ m = ⟨c, last⟩)
        ⟨c, 4 * (wordPos W ir.code j : ℤ)⟩ :=
      hpre.until hR hcode (fun k c hk hI hno => hQ _ (atNode_word hj (by omega)) hI hno)
        (fun c hI => ⟨c, hI, rfl⟩) hc
    refine huntil.leaves ?_
    rintro m ⟨c, hI, rfl⟩
    refine ⟨hQ _ (atNode_word hj (by omega)) hI (not_atRet_of_fetch hfetch hdecode hne c),
      fun u hu => Until.now ?_⟩
    obtain ⟨env, -, rfl⟩ := (hR _ _ hu).eq hfetch hdecode
    obtain ⟨hsame, hdisp⟩ := hexec env last c
    rw [hsame]
    rcases hdisp with hdisp | ⟨rfl, hdisp⟩
    · have hnext : ir.Next node j ip := by
        cases node with
        | jump t' =>
          cases hbranch
          exact hentry
        | branch cond t' =>
          cases hbranch
          exact Or.inl hentry
        | _ => cases hbranch
      have htarget := hP ip c hnext hI
      rw [hdisp]
      convert htarget using 2
      push_cast
      ring
    · have hnext : ir.Next node j (j + 1) := by
        cases node with
        | branch cond t' => exact Or.inr rfl
        | _ => cases hbranch
      have hfall := hP (j + 1) c hnext hI
      rw [wordPos_succ hj, hlen] at hfall
      rw [hdisp]
      convert hfall using 2
      push_cast
      ring

theorem words_ret [Profile] (hem : Emission emitNode ir.code W branchOf limit)
    (hj : ir.code[j]? = some .ret) : W .ret = [jalr 0 1 0] :=
  words_eq hem hj fun e _ => congrArg Except.ok (e.emit32_eq (jalr 0 1 0))

/-- At a return the machine stays. -/
theorem leaves_ret [Profile] (hem : Emission emitNode ir.code W branchOf limit)
    (himg : Image W branchOf patch ir ws) (hR : ∀ m m', R m m' → Moves E (ofWords ws) m m')
    (hj : ir.code[j]? = some .ret) {Q P : Machine → Prop} {c : Cpu}
    (hQ : Q ⟨c, 4 * (wordPos W ir.code j : ℤ)⟩) :
    Leaves R Q P ⟨c, 4 * (wordPos W ir.code j : ℤ)⟩ := by
  have hcode := codeAt_node himg hj (List.append_nil (W .ret)).symm (Or.inl rfl)
  rw [words_ret hem hj] at hcode
  have hdecode : decode (jalr 0 1 0) = some (.jalr 0 1 0) := decode_jalr 0 1 0
  refine Leaves.of_stays hQ fun u hu => ?_
  obtain ⟨env, -, rfl⟩ := (hR _ _ hu).eq hcode.head hdecode
  exact congrArg (Machine.mk c) (add_zero _)

/-- Behind the last node the machine stays. -/
theorem leaves_end (himg : Image W branchOf patch ir ws)
    (hR : ∀ m m', R m m' → Moves E (ofWords ws) m m') (hj : ir.code[j]? = none)
    {Q P : Machine → Prop} {c : Cpu}
    (hQ : ∀ m, m.pc = 4 * (wordPos W ir.code j : ℤ) → ¬ AtRet (ofWords ws) m → Q m) :
    Leaves R Q P ⟨c, 4 * (wordPos W ir.code j : ℤ)⟩ := by
  have hfetch := himg.fetch_end hj
  have hno : ¬ AtRet (ofWords ws) ⟨c, 4 * (wordPos W ir.code j : ℤ)⟩ := by
    intro hret
    unfold AtRet at hret
    rw [hfetch] at hret
    cases hret
  refine Leaves.of_stays (hQ _ rfl hno) fun u hu => ?_
  obtain ⟨env, -, hstep⟩ := hR _ _ hu
  unfold step at hstep
  rw [hfetch] at hstep
  exact (Except.ok.inj hstep).symm

section

variable [Profile] (hem : Emission emitNode ir.code W branchOf limit) {f : U16}

include hem

theorem prologue_words (hj : ir.code[j]? = some (.prologue f)) :
    W (.prologue f) = prologueWords f :=
  words_eq hem hj fun e _ => by
    rw [emitNode, emitPrologue_eq]
    exact congrArg Except.ok (e.emitWords_eq _)

theorem epilogue_words (hj : ir.code[j]? = some (.epilogue f)) :
    W (.epilogue f) = epilogueWords f :=
  words_eq hem hj fun e _ => by
    rw [emitNode, emitEpilogue_eq]
    exact congrArg Except.ok (e.emitWords_eq _)

end

/-! ### Arithmetic and branches -/

/-- Arithmetic nodes, with the register they write. -/
inductive Computes : IrNode → BpfReg → Prop
  | alu64 (op : AluOp) (d : BpfReg) (src : Source) :
    Computes (.alu64 op (riscv64Regmap.phys d) (riscv64Regmap.translateSource src)) d
  | alu32 (op : AluOp) (d : BpfReg) (src : Source) :
    Computes (.alu32 op (riscv64Regmap.phys d) (riscv64Regmap.translateSource src)) d
  | loadImm64 (d : BpfReg) (imm : U64) : Computes (.loadImm64 (riscv64Regmap.phys d) imm) d
  | endian (toBe : Bool) (width : EndianWidth) (d : BpfReg) :
    Computes (.endian toBe width (riscv64Regmap.phys d)) d

theorem translateSource_reg {src : Source} {p : PhysReg}
    (h : riscv64Regmap.translateSource src = .reg p) : ∃ s, p = physOf s := by
  cases src with
  | imm v => cases h
  | reg r =>
    cases h
    exact ⟨_, phys_eq r⟩

section

variable [Profile] (hem : Emission emitNode ir.code W branchOf limit)

include hem

/-- The words of an arithmetic node. -/
theorem Computes.touches {d : BpfReg} (h : Computes node d) (hj : ir.code[j]? = some node) :
    W node ≠ [] ∧ Touches (W node) ({xreg d} ∪ scratch node) := by
  have hwords : ∀ {ns : List U32}, branchOf node = none →
      (∀ e, emitNode e node = .ok (e.emitWords ns)) → W node = ns := fun hbranch hns =>
    words_eq hem hj fun e _ => by rw [hns, Emitter.emitWords_eq, hbranch]
  cases h with
  | alu64 op d src =>
    obtain ⟨ns, hns, hne, htouch⟩ :=
      touches_alu64 (ε := RiscVEmitError) op (xreg d) (fun _ => @translateSource_reg src _)
    rw [← phys_eq d] at hns htouch
    rw [hwords rfl fun e => by rw [emitNode, hns]; rfl]
    exact ⟨hne, htouch⟩
  | alu32 op d src =>
    obtain ⟨ns, hns, hne, htouch⟩ :=
      touches_alu32 (ε := RiscVEmitError) op (xreg d) (fun _ => @translateSource_reg src _)
    rw [← phys_eq d] at hns htouch
    rw [hwords rfl fun e => by rw [emitNode, hns]; rfl]
    exact ⟨hne, htouch⟩
  | loadImm64 d imm =>
    obtain ⟨ns, hns, hne, htouch⟩ := touches_loadImm64 (ε := RiscVEmitError) (xreg d) imm
    rw [← phys_eq d] at htouch
    have hns' : emitLoadImm64 (ε := RiscVEmitError) (riscv64Regmap.phys d).num imm = .ok ns := by
      rw [phys_eq d]
      exact hns
    rw [hwords rfl fun e => by rw [emitNode, hns']; rfl]
    exact ⟨hne, htouch⟩
  | endian toBe width d =>
    rw [hwords rfl fun e => rfl, phys_eq d]
    exact ⟨by simp [emitEndianNode], (touches_addi (xreg d) (xreg d) 0).mono Set.subset_union_left⟩

theorem Computes.keeps {d : BpfReg} (h : Computes node d) (hj : ir.code[j]? = some node)
    (hI : ∀ c c', SameOutside ({xreg d} ∪ scratch node) c c' → I c → I c') :
    NodeKeeps E I W node := by
  obtain ⟨hne, htouch⟩ := h.touches hem hj
  refine NodeKeeps.words ?_ ?_ hne (htouch.stays hI)
  · cases h <;> rfl
  · cases h <;> simp

/-- A jump changes nothing. -/
theorem keeps_jump {t : BasicBlockId} (hj : ir.code[j]? = some (.jump t)) :
    NodeKeeps E I W (.jump t) := by
  have hW : W (.jump t) = [] ++ [jal 0 0] := words_eq hem hj fun e _ =>
    congrArg Except.ok (e.pushRelocation_emit32 (jal 0 0) t .jal)
  refine NodeKeeps.branch rfl hW (Stays.nil E I) fun d f hf => ?_
  obtain ⟨imm20, hdecode, hdisp⟩ := patch_jal hf
  exact ⟨_, hdecode, by simp, fun env pc c => ⟨rfl, Or.inl hdisp⟩⟩

/-- **A conditional branch** changes the scratch register at most. -/
theorem keeps_branch {op : JmpOp} (hop : op ≠ .ja) {d : BpfReg} {src : Source} {is32bit : Bool}
    {t : BasicBlockId} (hnode : node = .branch ⟨op, riscv64Regmap.phys d,
      riscv64Regmap.translateSource src, is32bit⟩ t) (hj : ir.code[j]? = some node)
    (hI : ∀ c c', SameOutside (scratch node) c c' → I c → I c') : NodeKeeps E I W node := by
  subst hnode
  obtain ⟨pre, funct3, cond, s1, s2, hcond, htouch, hemit⟩ := branch_words (ε := RiscVEmitError) hop
    (xreg d) (fun _ => @translateSource_reg src _) is32bit t
  rw [← phys_eq d] at htouch hemit
  have hW := words_eq hem hj fun e _ => hemit e
  refine NodeKeeps.branch rfl hW (htouch.stays hI) fun d f hf => ?_
  obtain ⟨imm12, hdecode, hdisp⟩ := patch_branch hf hcond s1 s2
  refine ⟨_, hdecode, by simp, fun env pc c => ⟨rfl, ?_⟩⟩
  dsimp only [Instr.displacement]
  split_ifs
  · exact Or.inl hdisp
  · exact Or.inr ⟨rfl, rfl⟩

/-- A conditional branch with the operation `Ja` is no return. -/
theorem not_atRet_jaBranch (himg : Image W branchOf patch ir ws) {d : BpfReg} {src : Source}
    {is32bit : Bool} {t : BasicBlockId} (hnode : node = .branch ⟨.ja, riscv64Regmap.phys d,
      riscv64Regmap.translateSource src, is32bit⟩ t) (hj : ir.code[j]? = some node) (c : Cpu) :
    ¬ AtRet (ofWords ws) ⟨c, 4 * (wordPos W ir.code j : ℤ)⟩ := by
  subst hnode
  cases src with
  | reg s =>
    have hW : W (.branch ⟨.ja, riscv64Regmap.phys d, .reg (riscv64Regmap.phys s), is32bit⟩ t) =
        [] ++ [jal 0 0] := words_eq hem hj fun e _ => emitBranchNode_reg e .ja _ _ is32bit t
    obtain ⟨ip, f, -, hf, hfetch⟩ := himg.fetch_branch hj rfl hW
    rw [List.length_nil, Nat.cast_zero, mul_zero, add_zero] at hfetch
    obtain ⟨imm, -, hdecode⟩ := decode_scrambled hf
    exact not_atRet_of_fetch hfetch hdecode (by simp) c
  | imm v =>
    obtain ⟨ns, hns, hne, htouch⟩ := touches_loadImm64 (ε := RiscVEmitError) 23 v
    have hW := words_eq hem hj fun e _ =>
      emitBranchNode_imm e .ja (riscv64Regmap.phys d) hns is32bit t
    have hcode := codeAt_node himg hj hW (Or.inr (by simp [compareWords]))
    obtain ⟨w, rest, rfl⟩ := List.exists_cons_of_ne_nil hne
    obtain ⟨i, hdecode, hstraight, -⟩ := htouch w List.mem_cons_self
    refine not_atRet_of_fetch hcode.head hdecode ?_ c
    rintro rfl
    cases hstraight

/-! ### Memory and calls -/

theorem keeps_load {width : MemWidth} {d s : BpfReg} {off : I16}
    (hnode : node = .load width (riscv64Regmap.phys d) (riscv64Regmap.phys s) off)
    (hj : ir.code[j]? = some node)
    (hI : ∀ c c' : Cpu, (∀ r, r ≠ xreg d → c'.x r = c.x r) → I c → I c') :
    NodeKeeps E I W node := by
  subst hnode
  have hW := words_eq hem hj fun e _ => congrArg Except.ok (e.emitWords_eq _)
  rw [phys_eq d, phys_eq s] at hW hj ⊢
  refine NodeKeeps.words rfl (by simp) ?_ ?_
  · rw [hW]
    cases width <;> simp [emitLoadNode]
  · rw [hW]
    exact (alters_load width (xreg d) (xreg s) off).stays hI

theorem keeps_store {width : MemWidth} {d s : BpfReg} {off : I16}
    (hnode : node = .store width (riscv64Regmap.phys d) (riscv64Regmap.phys s) off)
    (hj : ir.code[j]? = some node) (hI : ∀ c c' : Cpu, c'.x = c.x → I c → I c') :
    NodeKeeps E I W node := by
  subst hnode
  have hW := words_eq hem hj fun e _ => congrArg Except.ok (e.emitWords_eq _)
  rw [phys_eq d, phys_eq s] at hW hj ⊢
  refine NodeKeeps.words rfl (by simp) ?_ ?_
  · rw [hW]
    cases width <;> simp [emitStoreNode]
  · rw [hW]
    exact (alters_store width (xreg d) (xreg s) off ∅).stays fun c c' h =>
      hI c c' (funext fun r => h r (Set.notMem_empty r))

theorem keeps_storeImm {width : MemWidth} {d : BpfReg} {off : I16} {imm : I32}
    (hnode : node = .storeImm width (riscv64Regmap.phys d) off imm) (hj : ir.code[j]? = some node)
    (hI : ∀ c c' : Cpu, (∀ r, r ≠ 23 → c'.x r = c.x r) → I c → I c') : NodeKeeps E I W node := by
  subst hnode
  obtain ⟨ns, hns, hne, htouch⟩ :=
    touches_loadImm64 (ε := RiscVEmitError) 23 (imm.signExtend 64)
  have hns' : emitLoadImm64 (ε := RiscVEmitError) tmp (imm.signExtend 64) = .ok ns := hns
  have hW : W (.storeImm width (riscv64Regmap.phys d) off imm) =
      ns ++ emitStoreNode width (riscv64Regmap.phys d) ⟨tmp⟩ off := words_eq hem hj fun e _ => by
    rw [emitNode, hns']
    exact congrArg Except.ok (e.emitWords_eq _)
  refine NodeKeeps.words rfl (by simp) ?_ ?_
  · rw [hW]
    simp [hne]
  · rw [hW]
    have hall : Alters (ns ++ emitStoreNode width (riscv64Regmap.phys d) ⟨tmp⟩ off) {23} := by
      rw [phys_eq d]
      refine Effects.append (htouch.mono ?_).alters (alters_store width (xreg d) 23 off _)
      rintro r (hr | ⟨rfl, -⟩)
      · exact hr
      · rfl
    exact hall.stays hI

theorem keeps_atomic (hlimit : limit < 2 ^ 30) {width : MemWidth} {op : AtomicOp} {d s : BpfReg}
    {off : I16}
    (hnode : node = .atomic width op (riscv64Regmap.phys d) (riscv64Regmap.phys s) off)
    (hj : ir.code[j]? = some node)
    (hI : ∀ c c' : Cpu, (∀ r, r ≠ 23 → c'.x r = c.x r) → I c → I c') : NodeKeeps E I W node := by
  subst hnode
  have hW := words_eq hem hj fun e he =>
    emitAtomicNode_eq op (riscv64Regmap.phys d) (riscv64Regmap.phys s) off (by omega)
  rw [phys_eq d, phys_eq s] at hW hj ⊢
  refine NodeKeeps.words rfl (by simp) ?_ ?_
  · rw [hW]
    simp [atomicWords]
  · rw [hW]
    exact stays_atomic E hI op (xreg d) (xreg s) off

/-- **A call** does what the helper does, after it has set the link register. -/
theorem keeps_call {funcId : U32} (hj : ir.code[j]? = some (.call funcId))
    (hI : ∀ env a c v, E env → I c → I (env.call a (c.set 1 v))) :
    NodeKeeps E I W (.call funcId) := by
  have hW : W (.call funcId) = [jalr 1 23 0] := words_eq hem hj fun e _ =>
    congrArg Except.ok (e.emit32_eq _)
  refine NodeKeeps.words rfl (by simp) (by simp [hW]) fun k w hk => ?_
  rw [hW] at hk ⊢
  have hk0 : k = 0 := by
    have := (List.getElem?_eq_some_iff.1 hk).1
    simpa using this
  subst hk0
  cases hk
  exact ⟨.jalr 1 23 0, decode_jalr 1 23 0, by simp, fun env pc c hE hc =>
    ⟨hI env _ c _ hE hc, 1, le_rfl, rfl⟩⟩

end

end NVMirror.Riscv
