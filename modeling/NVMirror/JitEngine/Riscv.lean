import NVMirror.JitEngine.Compile
import NVMirror.JitRegalloc.Stretches
import NVMirror.JitRiscv.Program

/-!
# What compiled RISC-V code preserves

A function has to give back `sp`, `ra` and `s0` to `s11` (`keptRegs`).  The code of a program
without helper calls and memory instructions does so along every run on which each step is careful
(`CarefulStep`): it executes no node that puts a constant into `s7`, which no prologue saves, no
32-bit branch with the operation `Ja`, and it does not go back to a prologue.

* `Body`: what holds between prologue and epilogue; `Body.of_sameOutside`: arithmetic keeps it.
* `carefulStep_carries`: from the prologue to the nodes of an instruction, from one instruction to
  the next, and from an epilogue to the return.
* `compile_riscv_preserves`: the registers at the return.
-/

namespace NVMirror

open Rust Leaders Temporal

/-- Neither a helper call nor a memory instruction. -/
def Insn.isPlain : Insn → Bool
  | .load .. | .storeReg .. | .storeImm .. | .atomic .. | .call _ | .tailCall => false
  | _ => true

variable {insns : List Insn} {flags : List Bool} {pcToBb : List BasicBlockId}
  {nodes : ℕ → List IrNode} {ir : IrProgram}

namespace Riscv

/-! ### Statement -/

/-- `ra`, `sp` and `s0` to `s11`. -/
def keptRegs : List Reg := [1, 2, 8, 9, 18, 19, 20, 21, 22, 23, 24, 25, 26, 27]

/-- A conditional branch with the operation `Ja`. -/
def isJaBranch : IrNode → Bool
  | .branch ⟨.ja, _, _, _⟩ _ => true
  | _ => false

/-- A step that does not start at a node that uses `s7` or is a branch with the operation `Ja`, and
does not lead to the prologue of a program with a frame. -/
structure CarefulStep [Profile] (ir : IrProgram) (code : List U8) (m m' : Machine) : Prop where
  moves : Moves (fun _ => True) code m m'
  node : ∀ j node, ir.code[j]? = some node → m.pc = nodeOffset emitNode ir.code j →
    usesScratch node = false ∧ isJaBranch node = false
  once : 0 < ir.frameSize → m'.pc ≠ 0

/-! ### Between prologue and epilogue -/

/-- With a frame, it holds the saved registers, and the others are unchanged; without a frame all
are. -/
def Body (f : U16) (c₀ c : Cpu) : Prop :=
  if 0 < f then c.x 2 = frameSp f c₀ ∧ Saved f c₀ c ∧
    ∀ r ∈ keptRegs, r ≠ 2 → (∀ slot ∈ frameSlots, slot.2 ≠ r) → c.x r = c₀.x r
  else ∀ r ∈ keptRegs, c.x r = c₀.x r

theorem body_afterPrologue {f : U16} (h : FrameSize f) (hf : 0 < f) (c : Cpu) :
    Body f c (afterPrologue f c) := by
  unfold Body
  rw [if_pos hf]
  refine ⟨?_, saved_afterPrologue h hf c, fun r hr h2 hslots => ?_⟩
  · show Function.update (Function.update c.x 2 (frameSp f c)) 8 (c.x 2) 2 = _
    rw [Function.update_of_ne (by decide), Function.update_self]
  · have h8 : r ≠ 8 := (hslots (16, 8) (by decide)).symm
    show Function.update (Function.update c.x 2 (frameSp f c)) 8 (c.x 2) r = _
    rw [Function.update_of_ne h8, Function.update_of_ne h2]

/-- An instruction writes `R6..R9` only in a program with a frame. -/
theorem xreg_notMem_kept (hof : FrameOf insns ir.frameSize) {insn : Insn} (hmem : insn ∈ insns)
    {d : BpfReg} (h10 : d ≠ BpfReg.r10)
    (hneeds : 6 ≤ d.index ∧ d.index ≤ 9 → needsFrame insn = true) {r : Reg} (hr : r ∈ keptRegs)
    (hkept : 0 < ir.frameSize → r = 2 ∨ ∀ slot ∈ frameSlots, slot.2 ≠ r) : r ≠ xreg d := by
  rintro rfl
  have hall : ∀ d : BpfReg, d ≠ BpfReg.r10 → xreg d ∈ keptRegs → 6 ≤ d.index ∧ d.index ≤ 9 ∧
      xreg d ≠ 2 ∧ ∃ slot ∈ frameSlots, slot.2 = xreg d := by
    decide
  obtain ⟨h6, h9, h2, slot, hslot, heq⟩ := hall d h10 hr
  by_cases hf : 0 < ir.frameSize
  · rcases hkept hf with h | h
    · exact h2 h
    · exact h slot hslot heq
  · have hzero : ir.frameSize = 0 := BitVec.eq_of_toNat_eq (Nat.le_zero.1 (BitVec.not_lt.1 hf))
    have hno := (hof.eq_zero_iff.1 hzero insn hmem).2
    rw [hneeds ⟨h6, h9⟩] at hno
    cases hno

/-- **Arithmetic keeps it.** -/
theorem Body.of_sameOutside {f : U16} {c₀ c c' : Cpu} {S : Set Reg} (h : Body f c₀ c)
    (hsame : SameOutside S c c')
    (hS : ∀ r ∈ keptRegs, (0 < f → r = 2 ∨ ∀ slot ∈ frameSlots, slot.2 ≠ r) → r ∉ S) :
    Body f c₀ c' := by
  unfold Body at h ⊢
  split_ifs at h ⊢ with hf
  · obtain ⟨hsp, hsaved, hother⟩ := h
    have h2 : c'.x 2 = c.x 2 := hsame.x 2 (hS 2 (by decide) fun _ => Or.inl rfl)
    refine ⟨h2.trans hsp, fun slot hslot => ?_, fun r hr hr2 hslots => ?_⟩
    · rw [h2, Cpu.load64, hsame.mem]
      exact hsaved slot hslot
    · rw [hsame.x r (hS r hr fun _ => Or.inr hslots)]
      exact hother r hr hr2 hslots
  · intro r hr
    rw [hsame.x r (hS r hr fun hpos => absurd hpos hf)]
    exact h r hr

/-- **An epilogue gives the registers back.** -/
theorem kept_of_epilogue {f : U16} (h : FrameSize f) (hf : 0 < f) {c₀ c : Cpu}
    (hbody : Body f c₀ c) :
    ∃ c', Line (epilogueWords f) c c' ∧ ∀ r ∈ keptRegs, c'.x r = c₀.x r := by
  unfold Body at hbody
  rw [if_pos hf] at hbody
  obtain ⟨hsp, hsaved, hother⟩ := hbody
  obtain ⟨c', hline, hsp', hloads, hkeep, -⟩ := epilogue_line h hf c
  refine ⟨c', hline, fun r hr => ?_⟩
  by_cases h2 : r = 2
  · subst h2
    rw [hsp', hsp, frameSp, BitVec.sub_add_cancel]
  · by_cases hslots : ∀ slot ∈ frameSlots, slot.2 ≠ r
    · rw [hkeep r h2 hslots, hother r hr h2 hslots]
    · push Not at hslots
      obtain ⟨slot, hslot, rfl⟩ := hslots
      rw [hloads slot hslot, hsaved slot hslot]

/-! ### Nodes -/

variable [Profile] {W : IrNode → List U32} {ws : List U32} {limit : ℕ} {E : Env → Prop}

/-- Arithmetic nodes and branches keep what arithmetic on their registers keeps. -/
theorem keeps_plain (h : Lowering insns riscv64Regmap flags pcToBb nodes ir) (hacc : Accepted insns)
    (hem : Emission emitNode ir.code W branchOf limit) {pc : ℕ} {insn : Insn}
    (hget : insns[pc]? = some insn) (hplain : insn.isPlain) (hexit : insn ≠ .exit) {node : IrNode}
    (hns : nodes pc = [node]) (hja : isJaBranch node = false) {I : Cpu → Prop}
    (hI : ∀ S : Set Reg, (∀ r ∈ S, r ∈ scratch node ∨ ∃ d, r = xreg d ∧ d ≠ BpfReg.r10 ∧
        (6 ≤ d.index ∧ d.index ≤ 9 → needsFrame insn = true)) →
      ∀ c c', SameOutside S c c' → I c → I c') : NodeKeeps E I W node := by
  have hpc := (List.getElem?_eq_some_iff.1 hget).1
  have hj := h.code_getElem? hacc.ne_nil hpc (show 0 < (nodes pc).length by rw [hns]; simp)
  rw [hns] at hj
  replace hj : ir.code[nodePos ir.frameSize nodes pc + 0]? = some node := hj
  have hlow := h.lower_eq pc insn hget
  rw [hns] at hlow
  have hcomputes : ∀ {d}, Computes node d → d ≠ BpfReg.r10 →
      (6 ≤ d.index ∧ d.index ≤ 9 → needsFrame insn = true) → NodeKeeps E I W node := by
    intro d hd h10 hneeds
    refine hd.keeps hem hj (hI _ fun r hr => ?_)
    rcases hr with hr | hr
    · exact Or.inr ⟨d, hr, h10, hneeds⟩
    · exact Or.inl hr
  have h10 := hacc.not_writes hget
  have hbranch : ∀ {op : JmpOp} {d : BpfReg} {src : Source} {is32bit : Bool} {t : BasicBlockId},
      op ≠ .ja → node = .branch ⟨op, riscv64Regmap.phys d, riscv64Regmap.translateSource src,
        is32bit⟩ t → NodeKeeps E I W node := fun hop hnode =>
    keeps_branch hem hop hnode hj (hI _ fun _ hr => Or.inl hr)
  cases insn with
  | alu64 op d src =>
    cases hlow
    exact hcomputes (.alu64 op d src) (Ne.symm h10) fun h69 => by simp [needsFrame, h69.1, h69.2]
  | alu32 op d src =>
    cases hlow
    exact hcomputes (.alu32 op d src) (Ne.symm h10) fun h69 => by simp [needsFrame, h69.1, h69.2]
  | loadImm64 d imm =>
    cases hlow
    exact hcomputes (.loadImm64 d imm) (Ne.symm h10) fun h69 => by simp [needsFrame, h69.1, h69.2]
  | endian toBe width d =>
    cases hlow
    exact hcomputes (.endian toBe width d) (Ne.symm h10) fun h69 => by
      simp [needsFrame, h69.1, h69.2]
  | jmpCond op d src off =>
    obtain ⟨t, -, hlow⟩ := bind_eq_ok.1 hlow
    cases hlow
    exact hbranch ((hacc.fromWire _ (List.mem_of_getElem? hget)).jmpCond_ne_ja _ _ _ _ rfl) rfl
  | jmpCond32 op d src off =>
    obtain ⟨t, -, hlow⟩ := bind_eq_ok.1 hlow
    cases hlow
    refine hbranch ?_ rfl
    rintro rfl
    cases hja
  | ja off =>
    obtain ⟨t, -, hlow⟩ := bind_eq_ok.1 hlow
    cases hlow
    exact keeps_jump hem hj
  | exit => exact absurd rfl hexit
  | _ => cases hplain

/-- The first word of such a node is no return. -/
theorem not_atRet_plain (h : Lowering insns riscv64Regmap flags pcToBb nodes ir)
    (hacc : Accepted insns) (hem : Emission emitNode ir.code W branchOf limit)
    (himg : Image W branchOf patch ir ws) {pc : ℕ} {insn : Insn} (hget : insns[pc]? = some insn)
    (hplain : insn.isPlain) (hexit : insn ≠ .exit) {node : IrNode} (hns : nodes pc = [node])
    (c : Cpu) :
    ¬ AtRet (ofWords ws) ⟨c, 4 * (wordPos W ir.code (nodePos ir.frameSize nodes pc) : ℤ)⟩ := by
  have hpc := (List.getElem?_eq_some_iff.1 hget).1
  have hj := h.code_getElem? hacc.ne_nil hpc (show 0 < (nodes pc).length by rw [hns]; simp)
  rw [hns] at hj
  replace hj : ir.code[nodePos ir.frameSize nodes pc]? = some node := hj
  cases hja : isJaBranch node with
  | false =>
    have hkeeps : NodeKeeps (fun _ => True) (fun _ => True) W node :=
      keeps_plain h hacc hem hget hplain hexit hns hja fun _ _ _ _ _ _ => trivial
    exact (hkeeps.leaves himg (R := Moves (fun _ => True) (ofWords ws)) (fun _ _ hm => hm) hj
      (Q := fun m => ¬ AtRet (ofWords ws) m) (P := fun _ => True) (fun _ _ _ hno => hno)
      (fun _ _ _ _ => trivial) (c := c) trivial).1
  | true =>
    -- the node is that of a 32-bit jump
    have hlow := h.lower_eq pc insn hget
    rw [hns] at hlow
    have hbranch : ∀ {op : JmpOp} {d : BpfReg} {src : Source} {is32bit : Bool} {t : BasicBlockId},
        node = .branch ⟨op, riscv64Regmap.phys d, riscv64Regmap.translateSource src, is32bit⟩ t →
          ¬ AtRet (ofWords ws)
            ⟨c, 4 * (wordPos W ir.code (nodePos ir.frameSize nodes pc) : ℤ)⟩ := by
      rintro op d src is32bit t rfl
      cases op with
      | ja => exact not_atRet_jaBranch hem himg rfl hj c
      | _ => cases hja
    cases insn with
    | jmpCond op d src off | jmpCond32 op d src off =>
      obtain ⟨t, -, hlow⟩ := bind_eq_ok.1 hlow
      cases hlow
      exact hbranch rfl
    | ja off =>
      obtain ⟨t, -, hlow⟩ := bind_eq_ok.1 hlow
      cases hlow
      cases hja
    | exit => exact absurd rfl hexit
    | _ =>
      first
      | cases hlow; cases hja
      | cases hplain

/-! ### Stretches of a run -/

/-- If the machine is at a return, the registers are given back. -/
def GivenBack (code : List U8) (c₀ : Cpu) (m : Machine) : Prop :=
  AtRet code m → ∀ r ∈ keptRegs, m.x r = c₀.x r

/-- **Careful steps** lead from the start through the body to a return. -/
theorem carefulStep_carries (h : Lowering insns riscv64Regmap flags pcToBb nodes ir)
    (hacc : Accepted insns) (hof : FrameOf insns ir.frameSize)
    (hplain : ∀ insn ∈ insns, insn.isPlain)
    (hem : Emission emitNode ir.code W branchOf limit) (himg : Image W branchOf patch ir ws)
    (c₀ : Cpu) :
    Carries Machine.mk (CarefulStep ir (ofWords ws)) (GivenBack (ofWords ws) c₀) W ir insns nodes
      (fun c => c = c₀) (Body ir.frameSize c₀) (fun c => ∀ r ∈ keptRegs, c.x r = c₀.x r) := by
  have hmoves : ∀ m m', CarefulStep ir (ofWords ws) m m' →
      Moves (fun _ => True) (ofWords ws) m m' := fun m m' hm => hm.moves
  have hback : ∀ m, ¬ AtRet (ofWords ws) m → GivenBack (ofWords ws) c₀ m := fun m hno hret =>
    absurd hret hno
  constructor
  case prologue =>
    rintro hf hj c rfl
    have hW := prologue_words hem hj
    have hcode := codeAt_node himg hj (List.append_nil _).symm (Or.inl rfl)
    rw [hW] at hcode
    refine (prologue_line h.frameSize hf c).leaves hmoves hcode (by simp [prologueWords])
      (fun k c _ hno => hback _ hno) ⟨_, body_afterPrologue h.frameSize hf c, ?_⟩
    rw [atNode, wordPos_succ hj, hW]
    push_cast
    rw [mul_add]
  case node =>
    rintro pc insn node hget hexit hns j rfl hj c hbody
    refine Or.inr ?_
    have hpl := hplain insn (List.mem_of_getElem? hget)
    by_cases hgood : usesScratch node = false ∧ isJaBranch node = false
    · -- a node after which the body goes on
      have hkeeps : NodeKeeps (fun _ => True) (Body ir.frameSize c₀) W node := by
        refine keeps_plain h hacc hem hget hpl hexit hns hgood.2 fun S hS c c' hsame hb => ?_
        refine hb.of_sameOutside hsame fun r hr hkept hmem => ?_
        rcases hS r hmem with ⟨-, huses⟩ | ⟨d, rfl, h10, hneeds⟩
        · rw [hgood.1] at huses
          cases huses
        · exact xreg_notMem_kept hof (List.mem_of_getElem? hget) h10 hneeds hr hkept rfl
      have hnext := hkeeps.leaves himg hmoves hj (Q := GivenBack (ofWords ws) c₀)
        (P := fun m => ∃ j' c, ir.Next node (nodePos ir.frameSize nodes pc) j' ∧
          Body ir.frameSize c₀ c ∧ m = ⟨c, 4 * (wordPos W ir.code j' : ℤ)⟩)
        (fun m _ _ hno => hback m hno) (fun j' c hj' hc => ⟨j', c, hj', hc, rfl⟩) hbody
      refine (hnext.after (G := fun m => 0 < ir.frameSize → m.pc ≠ 0)
        fun m m' hm => hm.once).mono (fun _ hq => hq) ?_
      rintro m ⟨⟨j', c', hj', hc', rfl⟩, honce⟩
      refine ⟨j', c', hj', ?_, rfl⟩
      rw [if_neg]
      · exact hc'
      · rintro ⟨rfl, hf⟩
        exact honce hf rfl
    · -- no careful step starts here
      refine ⟨hback _ (not_atRet_plain h hacc hem himg hget hpl hexit hns c), fun u hu => ?_⟩
      refine absurd (hu.node _ node hj ?_) hgood
      rw [nodeOffset_eq hem]
      push_cast
      rfl
  case epilogue =>
    intro hf j hpos hj c hbody
    have hW := epilogue_words hem hj
    have hcode := codeAt_node himg hj (List.append_nil _).symm (Or.inl rfl)
    rw [hW] at hcode
    obtain ⟨c', hline, hkept⟩ := kept_of_epilogue h.frameSize hf hbody
    refine hline.leaves hmoves hcode (by simp [epilogueWords]) (fun k c _ hno => hback _ hno)
      ⟨c', hkept, ?_⟩
    rw [atNode, wordPos_succ hj, hW]
    push_cast
    rw [mul_add]
  case ret =>
    intro j c hj hc P
    refine leaves_ret hem himg hmoves hj fun _ => ?_
    rcases hc with ⟨hf, hbody⟩ | ⟨-, hkept⟩
    · unfold Body at hbody
      rwa [if_neg hf] at hbody
    · exact hkept
  case stop =>
    intro j c hj hbody P
    exact leaves_end himg hmoves hj fun m _ hno => hback m hno

end Riscv

/-! ### Compiled programs -/

/-- What the compiler produced: a lowered program and its finished code. -/
theorem compile_riscv_image [Profile] {raw : List RawInsn} {out : JitOutput}
    (hdec : decodeProgram raw = .ok insns) (hout : compile raw .riscV64 = .ok out) :
    Accepted insns ∧ FrameOf insns out.ir.frameSize ∧ ∃ flags pcToBb nodes W ws,
      Lowering insns riscv64Regmap flags pcToBb nodes out.ir ∧
      Emission Riscv.emitNode out.ir.code W Riscv.branchOf bufLimit ∧
      out.code = ofWords ws ∧ Image W Riscv.branchOf Riscv.patch out.ir ws := by
  obtain ⟨hacc, hir, hcode⟩ := compile_stages hdec hout
  obtain ⟨flags, pcToBb, nodes, h⟩ := (lowerToIr_meets hacc _).of_ok hir
  obtain ⟨W, hem, -⟩ := h.riscv_emission hacc
  have hsize := hem.size
  unfold bufLimit at hsize
  obtain ⟨bbOffsets, hlabels, -, hmeets⟩ :=
    emission_meets .relocationOutOfRange Riscv.patch hem (by omega)
  obtain ⟨ws, hws, hpatched⟩ := hmeets.of_ok (mapErr_eq_ok.1 hcode)
  refine ⟨hacc, lowerToIr_frameOf hacc hir, flags, pcToBb, nodes, W, ws, h, hem, hws, ?_⟩
  refine image_of_patched hem (fun i j b b' hb hb' hid => ?_) hlabels hpatched
  rw [← h.block_id hacc hb, ← h.block_id hacc hb', hid]

/-- **Compiled RISC-V code gives back the caller's registers** on every careful run from its first
instruction to a return. -/
theorem compile_riscv_preserves [Profile] {raw : List RawInsn} {out : JitOutput}
    (hdec : decodeProgram raw = .ok insns) (hout : compile raw .riscV64 = .ok out)
    (hplain : ∀ insn ∈ insns, insn.isPlain) {m₀ m : Riscv.Machine} (hpc : m₀.pc = 0)
    (hrun : Relation.ReflTransGen (Riscv.CarefulStep out.ir out.code) m₀ m)
    (hret : Riscv.AtRet out.code m) : ∀ r ∈ Riscv.keptRegs, m.x r = m₀.x r := by
  obtain ⟨hacc, hof, flags, pcToBb, nodes, W, ws, h, hem, hcode, himg⟩ :=
    compile_riscv_image hdec hout
  rw [hcode] at hrun hret
  rcases m₀ with ⟨c₀, pc₀⟩
  dsimp only at hpc
  subst hpc
  have hstart : if 0 < out.ir.frameSize then c₀ = c₀ else Riscv.Body out.ir.frameSize c₀ c₀ := by
    split_ifs with hf
    · rfl
    · unfold Riscv.Body
      rw [if_neg hf]
      exact fun _ _ => rfl
  have hback : Riscv.GivenBack (ofWords ws) c₀ m :=
    (Riscv.carefulStep_carries h hacc hof hplain hem himg c₀).holds h hacc hstart hrun
  exact hback hret

/-- `r6 = 5; r0 = r6; exit`. -/
def throughR6 : List RawInsn := [⟨0xb7, 6, 0, 5⟩, ⟨0xbf, 0x60, 0, 0⟩, ⟨0x95, 0, 0, 0⟩]

theorem decode_throughR6 : decodeProgram throughR6 =
    .ok [.alu64 .mov BpfReg.r6 (.imm 5), .alu64 .mov BpfReg.r0 (.reg BpfReg.r6), .exit] := by
  decide +kernel

/-- `throughR6`, compiled for RISC-V. -/
def throughR6Out : JitOutput where
  code := ofWords [0xFC010113, 0x02113C23, 0x02813823, 0x03213423, 0x03313023, 0x01413C23,
    0x01513823, 0x01613423, 0x04010413, 0x00500913, 0x00090513, 0x00813B03, 0x01013A83, 0x01813A03,
    0x02013983, 0x02813903, 0x03013403, 0x03813083, 0x04010113, 0x00008067]
  ir := ⟨[⟨⟨0⟩, [.prologue 64, .alu64 .mov ⟨18⟩ (.imm 5), .alu64 .mov ⟨10⟩ (.reg ⟨18⟩),
    .epilogue 64, .ret]⟩], 64⟩
  numBlocks := 1

theorem compile_throughR6 : @compile debug throughR6 .riscV64 = .ok throughR6Out := by
  have h : (@compile debug throughR6 .riscV64).toOption = some throughR6Out := by
    decide +kernel
  exact ok_of_toOption h

/-- Every register holds something else. -/
def Riscv.Machine.distinct : Riscv.Machine :=
  ⟨⟨fun r => 0x1000 + 8 * r.setWidth 64, fun _ => 0, none⟩, 0⟩

/-- `compile_riscv_preserves` at the program `throughR6`, which writes `s2`, the register of `R6`:
all registers are different, and the caller's are there again at the return. -/
theorem compile_riscv_preserves_throughR6 :
    ∃ m m', Relation.ReflTransGen (@Riscv.CarefulStep debug throughR6Out.ir throughR6Out.code)
        .distinct m ∧ m.x 18 = 5 ∧
      Relation.ReflTransGen (@Riscv.CarefulStep debug throughR6Out.ir throughR6Out.code) m m' ∧
      Riscv.AtRet throughR6Out.code m' ∧ m'.x 10 = 5 ∧
      ∀ r ∈ Riscv.keptRegs, m'.x r = 0x1000 + 8 * r.setWidth 64 := by
  have hcareful : ∀ m m', 0 ≤ m.pc → m'.pc = m.pc + 4 →
      Riscv.step .idle throughR6Out.code m = .ok m' →
      @Riscv.CarefulStep debug throughR6Out.ir throughR6Out.code m m' := by
    intro m m' hm hm' hstep
    have hnodes : ∀ node ∈ throughR6Out.ir.code,
        Riscv.usesScratch node = false ∧ Riscv.isJaBranch node = false := by
      decide
    exact @Riscv.CarefulStep.mk debug _ _ _ _ ⟨.idle, trivial, hstep⟩
      (fun j node hj _ => hnodes node (List.mem_of_getElem? hj)) fun _ => by omega
  have hsize : FrameSize 64 := ⟨by decide, by decide, by decide⟩
  let c₀ := Riscv.Machine.distinct.toCpu
  let c₁ := (Riscv.Instr.opImm .add 18 0 5).effect (Riscv.afterPrologue 64 c₀)
  let c₂ := (Riscv.Instr.opImm .add 10 18 0).effect c₁
  obtain ⟨c₃, hepilogue, -, -, hother, -⟩ := Riscv.epilogue_line hsize (by decide) c₂
  have hfirst : Riscv.Line (Riscv.prologueWords 64 ++ [0x00500913]) c₀ c₁ :=
    (Riscv.prologue_line hsize (by decide) c₀).append (Riscv.Line.word (by decide) rfl _)
  have hsecond : Riscv.Line (0x00090513 :: Riscv.epilogueWords 64) c₁ c₃ :=
    Riscv.Line.cons (i := .opImm .add 10 18 0) (by decide) rfl hepilogue
  have hwords : throughR6Out.code = ofWords ((Riscv.prologueWords 64 ++ [0x00500913]) ++
      ((0x00090513 :: Riscv.epilogueWords 64) ++ [0x00008067])) := by
    decide
  have hcode := codeAt_ofWords ((Riscv.prologueWords 64 ++ [0x00500913]) ++
    ((0x00090513 :: Riscv.epilogueWords 64) ++ [0x00008067]))
  rw [← hwords] at hcode
  have hrun₁ := hfirst.run hcode.take hcareful
  have hrun₂ := hsecond.run hcode.drop.take
    fun m m' hm hm' hstep => hcareful m m' (le_trans (by decide) hm) hm' hstep
  have hret : Riscv.AtRet throughR6Out.code ⟨c₃, 76⟩ := by
    show (fetchU32 throughR6Out.code 76).bind Riscv.decode = some (.jalr 0 1 0)
    decide
  refine ⟨⟨c₁, 40⟩, ⟨c₃, 76⟩, hrun₁, rfl, hrun₂, hret, hother 10 (by decide) (by decide), ?_⟩
  exact @compile_riscv_preserves _ debug _ _ decode_throughR6 compile_throughR6 (by decide) _ _ rfl
    (hrun₁.trans hrun₂) hret

/-- `r0 = 5; r0 *= 3; exit`. -/
def timesThree : List RawInsn := [⟨0xb7, 0, 0, 5⟩, ⟨0x27, 0, 0, 3⟩, ⟨0x95, 0, 0, 0⟩]

/-- `timesThree`, compiled for RISC-V. -/
def timesThreeOut : JitOutput where
  code := ofWords [0x00500513, 0x00300B93, 0x03750533, 0x00008067]
  ir := ⟨[⟨⟨0⟩, [.alu64 .mov ⟨10⟩ (.imm 5), .alu64 .mul ⟨10⟩ (.imm 3), .ret]⟩], 0⟩
  numBlocks := 1

/-- **A callee-saved register is lost**: the compiled program puts the constant into `s7`. -/
theorem timesThree_loses_s7 :
    (∃ insns, decodeProgram timesThree = .ok insns ∧ verifyProgram insns = .ok 1 ∧
      ∀ insn ∈ insns, insn.isPlain) ∧
    @compile debug timesThree .riscV64 = .ok timesThreeOut ∧
      ∃ m, Relation.ReflTransGen (Riscv.Moves (fun _ => True) timesThreeOut.code) .distinct m ∧
        Riscv.AtRet timesThreeOut.code m ∧ m.x 23 ≠ Riscv.Machine.distinct.x 23 := by
  have hcompile : (@compile debug timesThree .riscV64).toOption = some timesThreeOut := by
    decide +kernel
  have hdec : decodeProgram timesThree = .ok [.alu64 .mov BpfReg.r0 (.imm 5),
      .alu64 .mul BpfReg.r0 (.imm 3), .exit] := by
    decide +kernel
  refine ⟨⟨_, hdec, rfl, by decide⟩, ok_of_toOption hcompile, ?_⟩
  let c₁ := (Riscv.Instr.opImm .add 10 0 5).effect Riscv.Machine.distinct.toCpu
  let c₂ := (Riscv.Instr.opImm .add 23 0 3).effect c₁
  let c₃ := (Riscv.Instr.op .mul false 10 10 23).effect c₂
  have hmoves : ∀ (pc : ℤ) (w : U32) (i : Riscv.Instr) (c : Riscv.Cpu),
      fetchU32 timesThreeOut.code pc = some w → Riscv.decode w = some i →
      i.traps .idle c = false →
      Riscv.Moves (fun _ => True) timesThreeOut.code ⟨c, pc⟩
        ⟨i.exec .idle pc c, pc + i.displacement c⟩ :=
    fun pc w i c hfetch hdecode htraps =>
      ⟨.idle, trivial, Riscv.step_of_fetch _ hfetch hdecode htraps⟩
  have h₁ : Riscv.Moves (fun _ => True) timesThreeOut.code .distinct ⟨c₁, 4⟩ :=
    hmoves 0 0x00500513 (.opImm .add 10 0 5) Riscv.Machine.distinct.toCpu (by decide) (by decide)
      rfl
  have h₂ : Riscv.Moves (fun _ => True) timesThreeOut.code ⟨c₁, 4⟩ ⟨c₂, 8⟩ :=
    hmoves 4 0x00300B93 (.opImm .add 23 0 3) c₁ (by decide) (by decide) rfl
  have h₃ : Riscv.Moves (fun _ => True) timesThreeOut.code ⟨c₂, 8⟩ ⟨c₃, 12⟩ :=
    hmoves 8 0x03750533 (.op .mul false 10 10 23) c₂ (by decide) (by decide) rfl
  refine ⟨⟨c₃, 12⟩, ((Relation.ReflTransGen.single h₁).tail h₂).tail h₃, ?_, ?_⟩
  · unfold Riscv.AtRet
    decide
  · decide

end NVMirror
