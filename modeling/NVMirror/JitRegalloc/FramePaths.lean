import NVMirror.EbpfCore.Exits
import NVMirror.JitIr.Image
import NVMirror.JitRegalloc.FrameSize
import NVMirror.JitRegalloc.Preservation

/-!
# Prologues and epilogues on paths

The prologue is the first node of block 0, so a jump to instruction 0 executes it again.

* `IrPath`: paths through the nodes of a lowered program.
* `Balanced`: one prologue, before anything else, and one epilogue, immediately before the return.
* `balanced_iff`: all paths are balanced unless a program with a frame jumps to instruction 0.
-/

namespace NVMirror

open Rust Leaders Relation

/-! ### Paths -/

/-- After `node` at position `j` the node at `j'` may follow. -/
def IrProgram.Next (ir : IrProgram) (node : IrNode) (j j' : ℕ) : Prop :=
  match node with
  | .jump t => ir.entry t = some j'
  | .branch _ t => ir.entry t = some j' ∨ j' = j + 1
  | .ret => False
  | _ => j' = j + 1

/-- Executing the nodes of the list leads from one position to another. -/
inductive IrPath (ir : IrProgram) : ℕ → List IrNode → ℕ → Prop
  | nil (j : ℕ) : IrPath ir j [] j
  | cons {j j' j'' : ℕ} {node : IrNode} {ns : List IrNode} (hnode : ir.code[j]? = some node)
      (hnext : ir.Next node j j') (hrest : IrPath ir j' ns j'') : IrPath ir j (node :: ns) j''

namespace IrPath

variable {ir : IrProgram} {j j' j'' : ℕ} {ns ns' : List IrNode}

theorem single {node : IrNode} (hnode : ir.code[j]? = some node) (hnext : ir.Next node j j') :
    IrPath ir j [node] j' :=
  cons hnode hnext (nil j')

theorem append (h : IrPath ir j ns j') (h' : IrPath ir j' ns' j'') :
    IrPath ir j (ns ++ ns') j'' := by
  induction h with
  | nil j => exact h'
  | cons hnode hnext hrest ih => exact cons hnode hnext (ih h')

theorem mem_code (h : IrPath ir j ns j') {node : IrNode} (hmem : node ∈ ns) : node ∈ ir.code := by
  induction h with
  | nil j => cases hmem
  | cons hnode hnext hrest ih =>
    rcases List.mem_cons.1 hmem with rfl | hmem
    · exact List.mem_of_getElem? hnode
    · exact ih hmem

/-- No path goes on from a return. -/
theorem eq_nil_of_ret (h : IrPath ir j ns j') (hret : ir.code[j]? = some .ret) : ns = [] := by
  cases h with
  | nil j => rfl
  | cons hnode hnext hrest =>
    cases hret.symm.trans hnode
    exact hnext.elim

end IrPath

/-- Prologues and epilogues. -/
def IrNode.isFrame : IrNode → Bool
  | .prologue _ | .epilogue _ => true
  | _ => false

/-- **The nodes before a return are balanced.**  With a frame, the first one is a prologue, the last
one an epilogue of the same size, and there is no other; without a frame there is none. -/
def Balanced (frameSize : U16) (ns : List IrNode) : Prop :=
  if 0 < frameSize then
    ∃ mid, ns = .prologue frameSize :: mid ++ [.epilogue frameSize] ∧ ∀ node ∈ mid, ¬ node.isFrame
  else ∀ node ∈ ns, ¬ node.isFrame

variable {insns : List Insn} {regmap : RegMap} {flags : List Bool} {pcToBb : List BasicBlockId}
  {nodes : ℕ → List IrNode} {ir : IrProgram}

/-! ### The nodes of an instruction -/

/-- An instruction other than `Exit` is lowered to one node, which is no prologue, epilogue or
return. -/
theorem lowerInsn_single {frameSize : U16} {pc : ℕ} {insn : Insn} {ns : List IrNode}
    (h : lowerInsn regmap pcToBb frameSize pc insn = .ok ns) (hexit : insn ≠ .exit)
    (htail : insn ≠ .tailCall) :
    ∃ node, ns = [node] ∧ node.isFrame = false ∧ node ≠ .ret ∧
      node.target.isSome = insn.jumpOff.isSome ∧
      (insn.fallsThrough = true → ∀ (ir : IrProgram) j, ir.Next node j (j + 1)) := by
  cases insn with
  | ja off =>
    obtain ⟨t, -, h⟩ := bind_eq_ok.1 h
    cases h
    exact ⟨_, rfl, rfl, by simp, rfl, fun hfall => by cases hfall⟩
  | jmpCond op dst src off | jmpCond32 op dst src off =>
    obtain ⟨t, -, h⟩ := bind_eq_ok.1 h
    cases h
    exact ⟨_, rfl, rfl, by simp, rfl, fun _ _ _ => Or.inr rfl⟩
  | exit => exact absurd rfl hexit
  | tailCall => exact absurd rfl htail
  | _ =>
    cases h
    exact ⟨_, rfl, rfl, by simp, rfl, fun _ _ _ => rfl⟩

namespace Lowering

/-- The first node of a program with a frame. -/
theorem code_zero (h : Lowering insns regmap flags pcToBb nodes ir) (hne : insns ≠ [])
    (hf : 0 < ir.frameSize) :
    ir.code[0]? = some (.prologue ir.frameSize) ∧ nodePos ir.frameSize nodes 0 = 1 := by
  rw [IrProgram.code, h.flatMap_nodes hne, nodePos_zero, prologueOf, if_pos hf]
  exact ⟨rfl, rfl⟩

/-- The nodes of an `Exit` of a program with a frame. -/
theorem code_exit (h : Lowering insns regmap flags pcToBb nodes ir) (hne : insns ≠ [])
    (hf : 0 < ir.frameSize) {pc : ℕ} (hget : insns[pc]? = some .exit) :
    ir.code[nodePos ir.frameSize nodes pc]? = some (.epilogue ir.frameSize) ∧
      ir.code[nodePos ir.frameSize nodes pc + 1]? = some .ret := by
  have hns := Except.ok.inj (h.lower_eq pc _ hget)
  rw [if_pos hf] at hns
  have hpc := (List.getElem?_eq_some_iff.1 hget).1
  have h0 := h.code_getElem? hne hpc (show 0 < (nodes pc).length by rw [← hns]; simp)
  have h1 := h.code_getElem? hne hpc (show 1 < (nodes pc).length by rw [← hns]; simp)
  rw [← hns] at h0 h1
  exact ⟨h0, h1⟩

/-- The node of an `Exit` of a program without a frame. -/
theorem code_exit_zero (h : Lowering insns regmap flags pcToBb nodes ir) (hne : insns ≠ [])
    (hf : ¬ 0 < ir.frameSize) {pc : ℕ} (hget : insns[pc]? = some .exit) :
    ir.code[nodePos ir.frameSize nodes pc]? = some .ret := by
  have hns := Except.ok.inj (h.lower_eq pc _ hget)
  rw [if_neg hf] at hns
  have hpc := (List.getElem?_eq_some_iff.1 hget).1
  have h0 := h.code_getElem? hne hpc (show 0 < (nodes pc).length by rw [← hns]; simp)
  rw [← hns] at h0
  exact h0

/-- There are no nodes behind those of the last instruction. -/
theorem code_none (h : Lowering insns regmap flags pcToBb nodes ir) (hne : insns ≠ []) {pc : ℕ}
    (hget : insns[pc]? = none) : ir.code[nodePos ir.frameSize nodes pc]? = none := by
  have hle := List.getElem?_eq_none_iff.1 hget
  have hspan := spanNodes_append nodes (Nat.zero_le insns.length) hle
  refine List.getElem?_eq_none ?_
  rw [IrProgram.code, h.flatMap_nodes hne, nodePos, List.length_append, List.length_append, ← hspan,
    List.length_append]
  omega

/-- The node of another instruction. -/
theorem code_single (h : Lowering insns regmap flags pcToBb nodes ir) (hacc : Accepted insns)
    {pc : ℕ} {insn : Insn} (hget : insns[pc]? = some insn) (hexit : insn ≠ .exit) :
    ∃ node, ir.code[nodePos ir.frameSize nodes pc]? = some node ∧ node.isFrame = false ∧
      node ≠ .ret ∧ nodePos ir.frameSize nodes (pc + 1) = nodePos ir.frameSize nodes pc + 1 ∧
      nodes pc = [node] ∧
      (insn.fallsThrough = true → ∀ (ir : IrProgram) j, ir.Next node j (j + 1)) := by
  obtain ⟨node, hns, hframe, hret, -, hfall⟩ :=
    lowerInsn_single (h.lower_eq pc _ hget) hexit (hacc.ne_tailCall hget)
  have hpc := (List.getElem?_eq_some_iff.1 hget).1
  have h0 := h.code_getElem? hacc.ne_nil hpc (show 0 < (nodes pc).length by rw [hns]; simp)
  rw [hns] at h0
  exact ⟨node, h0, hframe, hret, by rw [nodePos_succ, hns]; rfl, hns, hfall⟩

/-- Block 0 is the first one. -/
theorem entry_zero (h : Lowering insns regmap flags pcToBb nodes ir) (hacc : Accepted insns)
    {ip : ℕ} (hentry : ir.entry ⟨BitVec.ofNat 32 0⟩ = some ip) : ip = 0 := by
  obtain ⟨i, b, hb, hid, rfl⟩ := IrProgram.exists_of_entry hentry
  have hi := h.block_id hacc hb
  rw [hid] at hi
  obtain rfl : i = 0 := hi.symm
  rfl

/-- Where the node of a jump leads: to the first node of the target or, for instruction 0, of
block 0. -/
theorem next_jump (h : Lowering insns regmap flags pcToBb nodes ir) (hacc : Accepted insns)
    {pc q : ℕ} {insn : Insn} {off : I16} (hget : insns[pc]? = some insn)
    (hoff : insn.jumpOff = some off) (htarget : IsTarget pc off q) :
    ∃ node t ip, nodes pc = [node] ∧ node.target = some t ∧ ir.entry t = some ip ∧
      ir.Next node (nodePos ir.frameSize nodes pc) ip ∧ (q = 0 → ip = 0) ∧
      (q ≠ 0 → ip = nodePos ir.frameSize nodes q) := by
  obtain ⟨q', hq', htarget', hset, hbb⟩ := h.target hacc hget hoff
  obtain rfl := htarget.unique htarget'
  obtain ⟨node, hns, ht⟩ := lowerInsn_jump hoff hbb (h.lower_eq pc _ hget)
  obtain ⟨ip, hentry, hip⟩ := h.entry_eq hacc hset
  refine ⟨node, _, ip, hns, ht, hentry, ?_, ?_, fun hq => ?_⟩
  · cases node with
    | branch cond t =>
      cases ht
      exact Or.inl hentry
    | jump t =>
      cases ht
      exact hentry
    | _ => cases ht
  · rintro rfl
    rw [rank_zero] at hentry
    exact h.entry_zero hacc hentry
  · rcases hip with hip | ⟨rfl, -⟩
    · exact hip
    · exact absurd rfl hq

/-- **The next position**: the first node of an instruction, or the prologue if a jump leads to
instruction 0. -/
theorem next_pos (h : Lowering insns regmap flags pcToBb nodes ir) (hacc : Accepted insns)
    {pc j' : ℕ} {insn : Insn} (hget : insns[pc]? = some insn) {node : IrNode}
    (hns : nodes pc = [node])
    (hnext : ir.Next node (nodePos ir.frameSize nodes pc) j') :
    (∃ q, j' = nodePos ir.frameSize nodes q) ∨
      j' = 0 ∧ ∃ off, insn.jumpOff = some off ∧ IsTarget pc off 0 := by
  have hsucc : nodePos ir.frameSize nodes (pc + 1) = nodePos ir.frameSize nodes pc + 1 := by
    rw [nodePos_succ, hns]
    rfl
  have htarget : ∀ t, node.target = some t → ir.entry t = some j' →
      (∃ q, j' = nodePos ir.frameSize nodes q) ∨
        j' = 0 ∧ ∃ off, insn.jumpOff = some off ∧ IsTarget pc off 0 := by
    intro t ht hentry
    obtain ⟨off, hoff, -⟩ := jumpOff_of_target (h.lower_eq pc _ hget)
      (by rw [hns]; exact List.mem_singleton_self _) ht
    obtain ⟨q, hq, hqt⟩ := hacc.targets pc _ off hget hoff
    obtain ⟨node₂, t₂, ip, hns₂, ht₂, hentry₂, -, hzero, hip⟩ := h.next_jump hacc hget hoff hqt
    cases hns.symm.trans hns₂
    cases ht.symm.trans ht₂
    cases hentry.symm.trans hentry₂
    by_cases hq0 : q = 0
    · subst hq0
      exact Or.inr ⟨hzero rfl, off, hoff, hqt⟩
    · exact Or.inl ⟨q, hip hq0⟩
  cases node with
  | branch cond t =>
    rcases hnext with hentry | rfl
    · exact htarget t rfl hentry
    · exact Or.inl ⟨pc + 1, hsucc.symm⟩
  | jump t => exact htarget t rfl hnext
  | ret => exact hnext.elim
  | _ => exact Or.inl ⟨pc + 1, hnext.trans hsucc.symm⟩

end Lowering

/-! ### Balanced paths -/

namespace Lowering

/-- Without a frame there are no prologues and epilogues. -/
theorem not_isFrame_of_zero (h : Lowering insns regmap flags pcToBb nodes ir)
    (hacc : Accepted insns) (hf : ¬ 0 < ir.frameSize) {node : IrNode} (hnode : node ∈ ir.code) :
    ¬ node.isFrame := by
  obtain ⟨j, hj⟩ := List.getElem?_of_mem hnode
  rcases h.code_cases hacc.ne_nil hj with ⟨hf', -⟩ | ⟨pc, insn, k, hget, hk, -⟩
  · exact absurd hf' hf
  · by_cases hexit : insn = .exit
    · subst hexit
      have hns := Except.ok.inj (h.lower_eq pc _ hget)
      rw [if_neg hf] at hns
      have hmem := List.mem_of_getElem? hk
      rw [← hns, List.mem_singleton] at hmem
      subst hmem
      exact Bool.false_ne_true
    · obtain ⟨node', hns, hframe, -⟩ :=
        lowerInsn_single (h.lower_eq pc _ hget) hexit (hacc.ne_tailCall hget)
      have hmem := List.mem_of_getElem? hk
      rw [hns, List.mem_singleton] at hmem
      subst hmem
      rw [hframe]
      exact Bool.false_ne_true

/-- From an instruction to a return, if no jump leads back to instruction 0: one epilogue, at the
end. -/
theorem epilogue_last (h : Lowering insns regmap flags pcToBb nodes ir) (hacc : Accepted insns)
    (hf : 0 < ir.frameSize)
    (hno : ∀ (pc : ℕ) insn off, insns[pc]? = some insn → insn.jumpOff = some off →
      ¬ IsTarget pc off 0) {j j' : ℕ} {ns : List IrNode} (hpath : IrPath ir j ns j')
    (hret : ir.code[j']? = some .ret) {pc : ℕ} (hj : j = nodePos ir.frameSize nodes pc) :
    ∃ mid, ns = mid ++ [.epilogue ir.frameSize] ∧ ∀ node ∈ mid, ¬ node.isFrame := by
  induction hpath generalizing pc with
  | nil j =>
    -- the first node of an instruction is no return
    subst hj
    cases hget : insns[pc]? with
    | none =>
      rw [h.code_none hacc.ne_nil hget] at hret
      cases hret
    | some insn =>
      by_cases hexit : insn = .exit
      · subst hexit
        rw [(h.code_exit hacc.ne_nil hf hget).1] at hret
        cases hret
      · obtain ⟨node, hnode, -, hne, -⟩ := h.code_single hacc hget hexit
        rw [hnode] at hret
        exact absurd (Option.some.inj hret) hne
  | @cons j j₁ j' node ns hnode hnext hrest ih =>
    subst hj
    have hlt : pc < insns.length := by
      by_contra hge
      have hend := h.code_none hacc.ne_nil (List.getElem?_eq_none_iff.2 (not_lt.1 hge))
      rw [hend] at hnode
      cases hnode
    have hget := List.getElem?_eq_getElem hlt
    by_cases hexit : insns[pc] = .exit
    · -- the epilogue, then the return
      rw [hexit] at hget
      obtain ⟨hepi, hret'⟩ := h.code_exit hacc.ne_nil hf hget
      cases hepi.symm.trans hnode
      have hj₁ : j₁ = nodePos ir.frameSize nodes pc + 1 := hnext
      subst hj₁
      rw [hrest.eq_nil_of_ret hret']
      exact ⟨[], rfl, fun node hmem => by cases hmem⟩
    · obtain ⟨node', hnode', hframe, -, -, hns, -⟩ := h.code_single hacc hget hexit
      cases hnode.symm.trans hnode'
      have hnext' : ∃ q, j₁ = nodePos ir.frameSize nodes q := by
        rcases h.next_pos hacc hget hns hnext with hq | ⟨-, off, hoff, htarget⟩
        · exact hq
        · exact absurd htarget (hno pc _ off hget hoff)
      obtain ⟨q, rfl⟩ := hnext'
      obtain ⟨mid, rfl, hmid⟩ := ih hret rfl
      refine ⟨node :: mid, rfl, fun node₂ hmem => ?_⟩
      rcases List.mem_cons.1 hmem with rfl | hmem
      · rw [hframe]
        exact Bool.false_ne_true
      · exact hmid node₂ hmem

/-! ### Unbalanced paths -/

/-- From the start of block 0 to instruction 0. -/
theorem path_to_first (h : Lowering insns regmap flags pcToBb nodes ir) (hne : insns ≠ []) :
    ∃ ns, IrPath ir 0 ns (nodePos ir.frameSize nodes 0) := by
  by_cases hf : 0 < ir.frameSize
  · obtain ⟨hzero, hone⟩ := h.code_zero hne hf
    rw [hone]
    exact ⟨_, IrPath.single hzero (show 1 = 0 + 1 from rfl)⟩
  · rw [nodePos_zero, prologueOf, if_neg hf]
    exact ⟨[], IrPath.nil 0⟩

/-- An edge of the program is a path of the lowered program. -/
theorem path_of_edge (h : Lowering insns regmap flags pcToBb nodes ir) (hacc : Accepted insns)
    {pc q : ℕ} (hedge : Edge insns pc q) :
    ∃ ns, IrPath ir (nodePos ir.frameSize nodes pc) ns (nodePos ir.frameSize nodes q) := by
  obtain ⟨hq, insn, hget, hstep⟩ := hedge
  have hexit : insn ≠ .exit := by
    rintro rfl
    rcases hstep with ⟨hfall, -⟩ | ⟨off, hoff, -⟩
    · cases hfall
    · cases hoff
  obtain ⟨node, hnode, -, -, hsucc, hns, hfalls⟩ := h.code_single hacc hget hexit
  rcases hstep with ⟨hfall, rfl⟩ | ⟨off, hoff, htarget⟩
  · rw [hsucc]
    exact ⟨[node], IrPath.single hnode (hfalls hfall ir _)⟩
  · obtain ⟨node', -, ip, hns', -, -, hnext, hzero, hip⟩ := h.next_jump hacc hget hoff htarget
    cases hns.symm.trans hns'
    by_cases hq0 : q = 0
    · subst hq0
      obtain rfl := hzero rfl
      obtain ⟨ns, hns⟩ := h.path_to_first hacc.ne_nil
      exact ⟨node :: ns, IrPath.cons hnode hnext hns⟩
    · obtain rfl := hip hq0
      exact ⟨[node], IrPath.single hnode hnext⟩

theorem path_of_reach (h : Lowering insns regmap flags pcToBb nodes ir) (hacc : Accepted insns)
    {pc q : ℕ} (hreach : Reach insns pc q) :
    ∃ ns, IrPath ir (nodePos ir.frameSize nodes pc) ns (nodePos ir.frameSize nodes q) := by
  induction hreach with
  | refl => exact ⟨[], IrPath.nil _⟩
  | tail _ hedge ih =>
    obtain ⟨ns, hns⟩ := ih
    obtain ⟨ns', hns'⟩ := h.path_of_edge hacc hedge
    exact ⟨ns ++ ns', hns.append hns'⟩

/-- A jump to instruction 0 gives a path with two prologues. -/
theorem exists_unbalanced (h : Lowering insns regmap flags pcToBb nodes ir)
    (hacc : Accepted insns) (hreach : ∀ pc < insns.length, Reach insns 0 pc)
    (hf : 0 < ir.frameSize) {pc : ℕ} {insn : Insn} {off : I16} (hget : insns[pc]? = some insn)
    (hoff : insn.jumpOff = some off) (htarget : IsTarget pc off 0) :
    ∃ ns j, IrPath ir 0 ns j ∧ ir.code[j]? = some .ret ∧ ¬ Balanced ir.frameSize ns := by
  obtain ⟨hzero, hone⟩ := h.code_zero hacc.ne_nil hf
  have hstart : IrPath ir 0 [.prologue ir.frameSize] (nodePos ir.frameSize nodes 0) := by
    rw [hone]
    exact IrPath.single hzero (show 1 = 0 + 1 from rfl)
  -- from instruction 0 to the jump, and back to the prologue
  have hpc := (List.getElem?_eq_some_iff.1 hget).1
  obtain ⟨ns₁, hns₁⟩ := h.path_of_reach hacc (hreach pc hpc)
  have hexit : insn ≠ .exit := by
    rintro rfl
    cases hoff
  obtain ⟨node, hnode, -, -, -, hns, -⟩ := h.code_single hacc hget hexit
  obtain ⟨node', -, ip, hns', -, -, hnext, hback, -⟩ := h.next_jump hacc hget hoff htarget
  cases hns.symm.trans hns'
  obtain rfl := hback rfl
  -- from instruction 0 to an exit
  obtain ⟨e, he⟩ := hacc.exit
  obtain ⟨ns₂, hns₂⟩ := h.path_of_reach hacc (hreach e (List.getElem?_eq_some_iff.1 he).1)
  obtain ⟨hepi, hret⟩ := h.code_exit hacc.ne_nil hf he
  have hfirst := hstart.append (hns₁.append (IrPath.single hnode hnext))
  have hlast := hstart.append (hns₂.append (IrPath.single hepi rfl))
  refine ⟨_, _, hfirst.append hlast, hret, ?_⟩
  unfold Balanced
  rw [if_pos hf]
  rintro ⟨mid, hmid, hno⟩
  have hmid' : .prologue ir.frameSize ::
      (ns₁ ++ [node] ++ .prologue ir.frameSize :: ns₂) ++ [.epilogue ir.frameSize] =
        .prologue ir.frameSize :: mid ++ [.epilogue ir.frameSize] := by
    rw [← hmid]
    simp
  have heq := (List.cons.inj (List.append_cancel_right hmid')).2
  refine hno (.prologue ir.frameSize) ?_ rfl
  rw [← heq]
  simp

end Lowering

/-- **Prologue and epilogue are balanced on every path** from the start of block 0 to a return iff
no instruction needs a frame or no jump leads to instruction 0. -/
theorem balanced_iff [Profile] {raw : List RawInsn} {n : ℕ} (hdec : decodeProgram raw = .ok insns)
    (hver : verifyProgram insns = .ok n) (hir : lowerToIr insns regmap = .ok ir) :
    (∀ ns j, IrPath ir 0 ns j → ir.code[j]? = some .ret → Balanced ir.frameSize ns) ↔
      (∀ insn ∈ insns, stackOff insn = none ∧ needsFrame insn = false) ∨
        ∀ (pc : ℕ) insn off, insns[pc]? = some insn → insn.jumpOff = some off →
          ¬ IsTarget pc off 0 := by
  have hacc := accepted_of_ok hdec hver
  obtain ⟨flags, pcToBb, nodes, h⟩ := (lowerToIr_meets hacc regmap).of_ok hir
  rw [← (lowerToIr_frameOf hacc hir).eq_zero_iff]
  have hzero : ir.frameSize = 0 ↔ ¬ 0 < ir.frameSize := by
    rw [BitVec.not_lt]
    exact ⟨fun heq => heq ▸ BitVec.le_refl _, fun hle => BitVec.eq_of_toNat_eq (Nat.le_zero.1 hle)⟩
  constructor
  · intro hall
    rw [hzero]
    by_contra hno
    push Not at hno
    obtain ⟨hf, pc, insn, off, hget, hoff, htarget⟩ := hno
    have hreach : ∀ pc < insns.length, Reach insns 0 pc := fun pc => reach_of_verifyProgram hver
    obtain ⟨ns, j, hpath, hret, hun⟩ := h.exists_unbalanced hacc hreach hf hget hoff htarget
    exact hun (hall ns j hpath hret)
  · intro hor ns j hpath hret
    unfold Balanced
    by_cases hf : 0 < ir.frameSize
    · rw [if_pos hf]
      have hno := hor.resolve_left fun h0 => hzero.1 h0 hf
      obtain ⟨hpro, hone⟩ := h.code_zero hacc.ne_nil hf
      cases hpath with
      | nil =>
        rw [hpro] at hret
        cases hret
      | @cons _ j₁ _ node ns hnode hnext hrest =>
        cases hpro.symm.trans hnode
        have hj₁ : j₁ = nodePos ir.frameSize nodes 0 := by
          rw [hone]
          exact hnext
        obtain ⟨mid, rfl, hmid⟩ := h.epilogue_last hacc hf hno hrest hret hj₁
        exact ⟨mid, rfl, hmid⟩
    · rw [if_neg hf]
      exact fun node hmem => h.not_isFrame_of_zero hacc hf (hpath.mem_code hmem)

/-- A loop from the first instruction, in a program with a frame:
`r6 = 0; if r1 == 0 goto -2; r0 = 0; exit`. -/
def loopToStart : List RawInsn :=
  [⟨0xb7, 6, 0, 0⟩, ⟨0x15, 1, -2, 0⟩, ⟨0xb7, 0, 0, 0⟩, ⟨0x95, 0, 0, 0⟩]

/-- `loopToStart`, decoded. -/
def loopToStartInsns : List Insn :=
  [.alu64 .mov BpfReg.r6 (.imm 0), .jmpCond .jeq BpfReg.r1 (.imm 0) (-2),
    .alu64 .mov BpfReg.r0 (.imm 0), .exit]

theorem decode_loopToStart : decodeProgram loopToStart = .ok loopToStartInsns := by
  decide +kernel

/-- `loopToStart`, lowered. -/
def loopToStartIr : IrProgram where
  blocks := [⟨⟨0⟩, [.prologue 64, .alu64 .mov ⟨19⟩ (.imm 0),
      .branch ⟨.jeq, ⟨0⟩, .imm 0, false⟩ ⟨0⟩]⟩,
    ⟨⟨1⟩, [.alu64 .mov ⟨7⟩ (.imm 0), .epilogue 64, .ret]⟩]
  frameSize := 64

theorem lower_loopToStart :
    @lowerToIr debug loopToStartInsns aarch64Regmap = .ok loopToStartIr := by
  decide +kernel

/-- `balanced_iff` at `loopToStart`, whose second instruction jumps to instruction 0. -/
theorem balanced_iff_loopToStart :
    ¬ ∀ ns j, IrPath loopToStartIr 0 ns j → loopToStartIr.code[j]? = some .ret →
      Balanced loopToStartIr.frameSize ns := by
  have hver : verifyProgram loopToStartInsns = .ok 2 := rfl
  have hiff := @balanced_iff _ _ _ debug _ _ decode_loopToStart hver lower_loopToStart
  intro hall
  rcases hiff.1 hall with hno | hno
  · exact absurd (hno _ List.mem_cons_self).2 (by decide)
  · exact hno 1 _ (-2) rfl rfl (by unfold IsTarget; decide)

/-- **Two prologues and one epilogue** on a path of an accepted program. -/
theorem loopToStart_unbalanced :
    decodeProgram loopToStart = .ok loopToStartInsns ∧ verifyProgram loopToStartInsns = .ok 2 ∧
      @lowerToIr debug loopToStartInsns aarch64Regmap = .ok loopToStartIr ∧
      ∃ ns, IrPath loopToStartIr 0 ns 5 ∧ loopToStartIr.code[5]? = some .ret ∧
        ¬ Balanced loopToStartIr.frameSize ns := by
  have hloop : IrPath loopToStartIr 0 [.prologue 64, .alu64 .mov ⟨19⟩ (.imm 0),
      .branch ⟨.jeq, ⟨0⟩, .imm 0, false⟩ ⟨0⟩] 0 :=
    IrPath.cons rfl rfl (IrPath.cons rfl rfl (IrPath.single rfl (Or.inl rfl)))
  have hexit : IrPath loopToStartIr 0 [.prologue 64, .alu64 .mov ⟨19⟩ (.imm 0),
      .branch ⟨.jeq, ⟨0⟩, .imm 0, false⟩ ⟨0⟩, .alu64 .mov ⟨7⟩ (.imm 0), .epilogue 64] 5 :=
    IrPath.cons rfl rfl (IrPath.cons rfl rfl (IrPath.cons rfl
      (Or.inr rfl) (IrPath.cons rfl rfl (IrPath.single rfl rfl))))
  refine ⟨decode_loopToStart, rfl, lower_loopToStart, _, hloop.append hexit, rfl, ?_⟩
  unfold Balanced
  rw [if_pos (by decide)]
  rintro ⟨mid, hmid, hno⟩
  -- the second prologue is in the middle
  have hmid' := (List.cons.inj (hmid.trans (List.cons_append ..))).2
  have hmem : IrNode.prologue 64 ∈ mid ++ [.epilogue loopToStartIr.frameSize] := by
    rw [← hmid']
    decide
  rcases List.mem_append.1 hmem with hmem | hmem
  · exact hno _ hmem rfl
  · cases List.mem_singleton.1 hmem

end NVMirror
