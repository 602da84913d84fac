import NVMirror.JitRegalloc.Lower
import NVMirror.JitRiscv.Line
import NVMirror.JitRiscv.Nodes

/-!
# The registers a node changes

The words of a node change its destination and, for operands that no instruction can hold, the
scratch register `s7` (`usesScratch`).

* `touches_loadImm64`, `touches_alu64`, `touches_alu32`: nodes on registers.
* `alters_load`, `alters_store`, `stays_atomic`: nodes on memory.
* `compareWords_eq`: a conditional branch is a line followed by one branch.
-/

namespace NVMirror.Riscv

open Rust Fields

/-- The register of an eBPF register. -/
def xreg : BpfReg → Reg := ![10, 11, 12, 13, 14, 15, 18, 19, 20, 21, 22]

theorem phys_eq : ∀ r, riscv64Regmap.phys r = physOf (xreg r) := by
  decide

/-- None is the zero register, and none is the scratch register. -/
theorem xreg_ne_zero : ∀ r, xreg r ≠ 0 := by
  decide

theorem xreg_ne_scratch : ∀ r, xreg r ≠ 23 := by
  decide

/-- `I` type immediates. -/
def IsShort (v : I64) : Prop := -2048 ≤ v.toInt ∧ v.toInt < 2048

instance : DecidablePred IsShort := fun v =>
  inferInstanceAs (Decidable (-2048 ≤ v.toInt ∧ v.toInt < 2048))

/-- Constants whose lower half is put together in the scratch register. -/
def IsWide (imm : U64) : Prop :=
  ¬ (-2147483648 ≤ imm.toInt ∧ imm.toInt < 2147483648) ∧ imm &&& 0xFFFFFFFF ≠ 0

instance : DecidablePred IsWide := fun imm =>
  inferInstanceAs (Decidable
    (¬ (-2147483648 ≤ imm.toInt ∧ imm.toInt < 2147483648) ∧ imm &&& 0xFFFFFFFF ≠ 0))

/-- Do the words of the node use the scratch register? -/
def usesScratch : IrNode → Bool
  | .alu64 op _ (.imm v) =>
    match op with
    | .neg | .lsh | .rsh | .arsh => false
    | .mov => IsWide v
    | .add | .and | .or | .xor => ¬ IsShort v
    | .sub | .mul | .div | .mod => true
  | .alu32 op _ (.imm _) => op ≠ .neg
  | .loadImm64 _ imm => IsWide imm
  | .branch ⟨op, _, .reg _, _⟩ _ => op = .jset
  | .branch ⟨_, _, .imm _, _⟩ _ => true
  | .storeImm .. | .atomic .. => true
  | _ => false

/-- The scratch register, if the node uses it. -/
def scratch (node : IrNode) : Set Reg := {r | r = 23 ∧ usesScratch node}

theorem scratch_eq {node : IrNode} (h : usesScratch node = true) : scratch node = {23} := by
  ext r
  simp [scratch, h]

/-! ### Words -/

theorem touches_op (funct7 : BitVec 7) (funct3 : BitVec 3) {f : DataOp}
    (h : dataOp funct7 funct3 = some f) (d s1 s2 : Reg) :
    Touches [rType (funct7.setWidth 32) (s2.setWidth 8) (s1.setWidth 8) (funct3.setWidth 32)
      (d.setWidth 8) 0x33] {d} :=
  touches_word (decode_op funct7 funct3 h d s1 s2) rfl fun _ => ⟨_, rfl⟩

theorem touches_opWord (funct7 : BitVec 7) (funct3 : BitVec 3) {f : DataOp}
    (h : (dataOp funct7 funct3).filter DataOp.hasWord = some f) (d s1 s2 : Reg) :
    Touches [rType (funct7.setWidth 32) (s2.setWidth 8) (s1.setWidth 8) (funct3.setWidth 32)
      (d.setWidth 8) 0x3B] {d} :=
  touches_word (decode_opWord funct7 funct3 h d s1 s2) rfl fun _ => ⟨_, rfl⟩

theorem touches_opImm (funct3 : BitVec 3) {f : DataOp} (h : immOp funct3 = some f) (d s1 : Reg)
    (imm : I32) :
    Touches [iType imm (s1.setWidth 8) (funct3.setWidth 32) (d.setWidth 8) 0x13] {d} :=
  touches_word (decode_opImm funct3 h d s1 imm) rfl fun _ => ⟨_, rfl⟩

theorem touches_addi (d s1 : Reg) (imm : I32) :
    Touches [addi (d.setWidth 8) (s1.setWidth 8) imm] {d} :=
  touches_opImm 0 rfl d s1 imm

theorem touches_shiftImm (funct6 : BitVec 6) (funct3 : BitVec 3) {f : DataOp}
    (h : shiftOp funct6 funct3 = some f) (d s1 : Reg) (shamt : U32) :
    Touches [shiftImm (funct6.setWidth 32 <<< 6) (s1.setWidth 8) shamt (funct3.setWidth 32)
      (d.setWidth 8)] {d} :=
  touches_word (decode_shiftImm funct6 funct3 h d s1 shamt) rfl fun _ => ⟨_, rfl⟩

theorem touches_lui (d : Reg) (imm : I32) : Touches [lui (d.setWidth 8) imm] {d} :=
  touches_word (decode_lui d imm) rfl fun _ => ⟨_, rfl⟩

/-! ### Constants -/

section

variable {ε : Type} [Profile]

omit [Profile] in
/-- `LUI`, then `ADDI` for a lower part that is not zero. -/
theorem touches_split (d : Reg) (hi lo : I32) :
    Touches (lui (d.setWidth 8) hi ::
      if lo ≠ 0 then [addi (d.setWidth 8) (d.setWidth 8) (signExtend12 lo)] else []) {d} := by
  have hlow : Touches
      (if lo ≠ 0 then [addi (d.setWidth 8) (d.setWidth 8) (signExtend12 lo)] else []) {d} := by
    split_ifs
    · exact touches_addi d d _
    · exact Effects.nil _
  exact (touches_lui d hi).append hlow

theorem splitImm_zero {hi lo : I32} (h : splitImm (ε := ε) 0 = .ok (hi, lo)) :
    hi = 0 ∧ lo = 0 := by
  rw [splitImm_eq 0 (by decide)] at h
  cases h
  exact ⟨rfl, rfl⟩

/-- **Constants.** -/
theorem touches_loadImm64 (d : Reg) (imm : U64) :
    ∃ ws, emitLoadImm64 (ε := ε) (d.setWidth 8) imm = .ok ws ∧ ws ≠ [] ∧
      Touches ws ({d} ∪ scratch (.loadImm64 (physOf d) imm)) := by
  have hd : ({d} : Set Reg) ⊆ {d} ∪ scratch (.loadImm64 (physOf d) imm) := Set.subset_union_left
  unfold emitLoadImm64
  split_ifs with h0 h12 h32
  · exact ⟨_, rfl, by simp, (touches_addi d 0 0).mono hd⟩
  · exact ⟨_, rfl, by simp, (touches_addi d 0 _).mono hd⟩
  · rw [splitImm_eq imm (by omega), ok_bind]
    exact ⟨_, rfl, by simp, (touches_split d _ _).mono hd⟩
  · obtain ⟨⟨hiUpper, loUpper⟩, ⟨hiLower, loLower⟩, hx, hy⟩ := splitImm_halves (ε := ε) imm
    dsimp only
    rw [hx, ok_bind, hy, ok_bind]
    have hupper := ((touches_split d hiUpper loUpper).append
      (touches_shiftImm 0 1 rfl d d 32)).mono hd
    refine ⟨_, rfl, by simp, ?_⟩
    dsimp only
    refine hupper.append ?_
    by_cases hwide : IsWide imm
    · have hd' : ({d} : Set Reg) ⊆ {d} ∪ {23} := Set.subset_union_left
      have htmp : ({23} : Set Reg) ⊆ {d} ∪ {23} := Set.subset_union_right
      have hadd := (touches_op 0 0 rfl d d 23).mono hd'
      have huses : usesScratch (.loadImm64 (physOf d) imm) = true := decide_eq_true hwide
      rw [scratch_eq huses]
      by_cases hhi : hiLower ≠ 0
      · rw [if_pos hhi]
        exact ((touches_split 23 hiLower loLower).mono htmp).append hadd
      · rw [if_neg hhi]
        by_cases hlo : loLower ≠ 0
        · rw [if_pos hlo]
          exact ((touches_addi 23 0 _).mono htmp).append hadd
        · rw [if_neg hlo]
          exact Effects.nil _
    · -- the lower half is zero
      have hzero : imm &&& 0xFFFFFFFF = 0 := by
        by_contra hne
        exact hwide ⟨h32, hne⟩
      rw [hzero] at hy
      obtain ⟨rfl, rfl⟩ := splitImm_zero hy
      exact Effects.nil _

/-! ### Arithmetic -/

/-- The word of an operation on two registers. -/
theorem touches_alu64_reg (op : AluOp) (d s : Reg) :
    ∃ ws, emitAlu64Node (ε := ε) op (physOf d) (.reg (physOf s)) = .ok ws ∧ ws ≠ [] ∧
      Touches ws {d} := by
  have hop : ∀ (funct7 : BitVec 7) (funct3 : BitVec 3) {f : DataOp},
      dataOp funct7 funct3 = some f → Touches [rType (funct7.setWidth 32) (s.setWidth 8)
        (d.setWidth 8) (funct3.setWidth 32) (d.setWidth 8) 0x33] {d} :=
    fun funct7 funct3 _ h => touches_op funct7 funct3 h d d s
  cases op with
  | add => exact ⟨_, by rw [emitAlu64Node]; rfl, by simp, hop 0 0 rfl⟩
  | sub => exact ⟨_, by rw [emitAlu64Node]; rfl, by simp, hop 0x20 0 rfl⟩
  | mul => exact ⟨_, by rw [emitAlu64Node]; rfl, by simp, hop 1 0 rfl⟩
  | div => exact ⟨_, by rw [emitAlu64Node]; rfl, by simp, hop 1 5 rfl⟩
  | mod => exact ⟨_, by rw [emitAlu64Node]; rfl, by simp, hop 1 7 rfl⟩
  | or => exact ⟨_, by rw [emitAlu64Node]; rfl, by simp, hop 0 6 rfl⟩
  | and => exact ⟨_, by rw [emitAlu64Node]; rfl, by simp, hop 0 7 rfl⟩
  | xor => exact ⟨_, by rw [emitAlu64Node]; rfl, by simp, hop 0 4 rfl⟩
  | lsh => exact ⟨_, by rw [emitAlu64Node]; rfl, by simp, hop 0 1 rfl⟩
  | rsh => exact ⟨_, by rw [emitAlu64Node]; rfl, by simp, hop 0 5 rfl⟩
  | arsh => exact ⟨_, by rw [emitAlu64Node]; rfl, by simp, hop 0x20 5 rfl⟩
  | mov => exact ⟨_, by rw [emitAlu64Node]; rfl, by simp, touches_addi d s 0⟩
  | neg => exact ⟨_, by rw [emitAlu64Node]; rfl, by simp, touches_op 0x20 0 rfl d 0 d⟩

/-- The words of an operation on 32 bits. -/
theorem touches_alu32_reg (op : AluOp) (d s : Reg) :
    ∃ ws, emitAlu32Node (ε := ε) op (physOf d) (.reg (physOf s)) = .ok ws ∧ ws ≠ [] ∧
      Touches ws {d} := by
  have hop : ∀ (funct7 : BitVec 7) (funct3 : BitVec 3) {f : DataOp},
      (dataOp funct7 funct3).filter DataOp.hasWord = some f → Touches [rType (funct7.setWidth 32)
        (s.setWidth 8) (d.setWidth 8) (funct3.setWidth 32) (d.setWidth 8) 0x3B] {d} :=
    fun funct7 funct3 _ h => touches_opWord funct7 funct3 h d d s
  have hext : Touches (zeroExtend (physOf d)) {d} :=
    (touches_shiftImm 0 1 rfl d d 32).append (touches_shiftImm 0 5 rfl d d 32)
  have hop64 : ∀ (funct7 : BitVec 7) (funct3 : BitVec 3) {f : DataOp},
      dataOp funct7 funct3 = some f → Touches (rType (funct7.setWidth 32) (s.setWidth 8)
        (d.setWidth 8) (funct3.setWidth 32) (d.setWidth 8) 0x33 :: zeroExtend (physOf d)) {d} :=
    fun funct7 funct3 _ h => (touches_op funct7 funct3 h d d s).append hext
  cases op with
  | add => exact ⟨_, by rw [emitAlu32Node]; rfl, by simp, hop 0 0 rfl⟩
  | sub => exact ⟨_, by rw [emitAlu32Node]; rfl, by simp, hop 0x20 0 rfl⟩
  | mul => exact ⟨_, by rw [emitAlu32Node]; rfl, by simp, hop 1 0 rfl⟩
  | div => exact ⟨_, by rw [emitAlu32Node]; rfl, by simp, hop 1 5 rfl⟩
  | mod => exact ⟨_, by rw [emitAlu32Node]; rfl, by simp, hop 1 7 rfl⟩
  | lsh => exact ⟨_, by rw [emitAlu32Node]; rfl, by simp, hop 0 1 rfl⟩
  | rsh => exact ⟨_, by rw [emitAlu32Node]; rfl, by simp, hop 0 5 rfl⟩
  | arsh => exact ⟨_, by rw [emitAlu32Node]; rfl, by simp, hop 0x20 5 rfl⟩
  | mov => exact ⟨_, by rw [emitAlu32Node]; rfl, by simp, (touches_addi d s 0).append hext⟩
  | or => exact ⟨_, by rw [emitAlu32Node]; rfl, by simp, hop64 0 6 rfl⟩
  | and => exact ⟨_, by rw [emitAlu32Node]; rfl, by simp, hop64 0 7 rfl⟩
  | xor => exact ⟨_, by rw [emitAlu32Node]; rfl, by simp, hop64 0 4 rfl⟩
  | neg => exact ⟨_, by rw [emitAlu32Node]; rfl, by simp, touches_opWord 0x20 0 rfl d 0 d⟩

/-- A constant in the scratch register, then an operation on it. -/
theorem touches_fallback {emit : Operand → Rust ε (List U32)} (v : I64) {d : Reg}
    (hreg : ∃ ws, emit (.reg (physOf 23)) = .ok ws ∧ ws ≠ [] ∧ Touches ws {d}) :
    ∃ ws', (do
      let (ws, rs) ← materializeImm v tmp
      let ws' ← emit (.reg ⟨rs⟩)
      pure (ws ++ ws')) = .ok ws' ∧ ws' ≠ [] ∧ Touches ws' ({d} ∪ {23}) := by
  obtain ⟨ws, hws, hne, htouch⟩ := touches_loadImm64 (ε := ε) 23 v
  obtain ⟨ws', hws', -, htouch'⟩ := hreg
  have hsub : ({23} ∪ scratch (.loadImm64 (physOf 23) v) : Set Reg) ⊆ {d} ∪ {23} := by
    rintro r (hr | ⟨rfl, -⟩)
    · exact Or.inr hr
    · exact Or.inr rfl
  refine ⟨ws ++ ws', ?_, by simp [hne],
    (htouch.mono hsub).append (htouch'.mono Set.subset_union_left)⟩
  unfold materializeImm
  rw [show (tmp : U8) = (23 : Reg).setWidth 8 from rfl, hws, ok_bind, pure_eq, ok_bind]
  dsimp only
  rw [show (⟨(23 : Reg).setWidth 8⟩ : PhysReg) = physOf 23 from rfl, hws', ok_bind]
  rfl

/-- **Arithmetic on 64 bits.** -/
theorem touches_alu64 (op : AluOp) (d : Reg) {src : Operand}
    (hsrc : ∀ p, src = .reg p → ∃ s, p = physOf s) :
    ∃ ws, emitAlu64Node (ε := ε) op (physOf d) src = .ok ws ∧ ws ≠ [] ∧
      Touches ws ({d} ∪ scratch (.alu64 op (physOf d) src)) := by
  have hd : ∀ node, ({d} : Set Reg) ⊆ {d} ∪ scratch node := fun node => Set.subset_union_left
  cases src with
  | reg p =>
    obtain ⟨s, rfl⟩ := hsrc p rfl
    obtain ⟨ws, hws, hne, htouch⟩ := touches_alu64_reg (ε := ε) op d s
    exact ⟨ws, hws, hne, htouch.mono (hd _)⟩
  | imm v =>
    have hfall := touches_fallback (ε := ε) v (touches_alu64_reg op d 23)
    have hshort : ∀ (funct3 : BitVec 3) {f : DataOp}, immOp funct3 = some f → ∀ node,
        Touches [iType (v.setWidth 32) (d.setWidth 8) (funct3.setWidth 32) (d.setWidth 8) 0x13]
          ({d} ∪ scratch node) :=
      fun funct3 _ h node => (touches_opImm funct3 h d d _).mono (hd node)
    cases op with
    | mov =>
      obtain ⟨ws, hws, hne, htouch⟩ := touches_loadImm64 (ε := ε) d v
      exact ⟨ws, by rw [emitAlu64Node]; exact hws, hne, htouch⟩
    | neg =>
      exact ⟨_, by rw [emitAlu64Node]; rfl, by simp, (touches_op 0x20 0 rfl d 0 d).mono (hd _)⟩
    | lsh =>
      exact ⟨_, by rw [emitAlu64Node]; rfl, by simp, (touches_shiftImm 0 1 rfl d d _).mono (hd _)⟩
    | rsh =>
      exact ⟨_, by rw [emitAlu64Node]; rfl, by simp, (touches_shiftImm 0 5 rfl d d _).mono (hd _)⟩
    | arsh =>
      exact ⟨_, by rw [emitAlu64Node]; rfl, by simp,
        (touches_shiftImm 0x10 5 rfl d d _).mono (hd _)⟩
    | sub | mul | div | mod =>
      rw [emitAlu64Node, scratch_eq rfl]
      · simpa using hfall
      all_goals simp
    | add =>
      by_cases h : IsShort v
      · refine ⟨_, ?_, by simp, hshort 0 rfl _⟩
        rw [emitAlu64Node, if_pos ⟨rfl, h⟩]
        all_goals first | rfl | simp
      · rw [emitAlu64Node, scratch_eq (by simpa [usesScratch] using h)]
        · rw [if_neg fun hc => h hc.2]
          simpa using hfall
        all_goals simp
    | and =>
      by_cases h : IsShort v
      · refine ⟨_, ?_, by simp, hshort 7 rfl _⟩
        rw [emitAlu64Node, if_neg (by simp), if_pos ⟨rfl, h⟩]
        all_goals first | rfl | simp
      · rw [emitAlu64Node, scratch_eq (by simpa [usesScratch] using h)]
        · rw [if_neg (by simp), if_neg fun hc => h hc.2]
          simpa using hfall
        all_goals simp
    | or =>
      by_cases h : IsShort v
      · refine ⟨_, ?_, by simp, hshort 6 rfl _⟩
        rw [emitAlu64Node, if_neg (by simp), if_neg (by simp), if_pos ⟨rfl, h⟩]
        all_goals first | rfl | simp
      · rw [emitAlu64Node, scratch_eq (by simpa [usesScratch] using h)]
        · rw [if_neg (by simp), if_neg (by simp), if_neg fun hc => h hc.2]
          simpa using hfall
        all_goals simp
    | xor =>
      by_cases h : IsShort v
      · refine ⟨_, ?_, by simp, hshort 4 rfl _⟩
        rw [emitAlu64Node, if_neg (by simp), if_neg (by simp), if_neg (by simp), if_pos ⟨rfl, h⟩]
        all_goals first | rfl | simp
      · rw [emitAlu64Node, scratch_eq (by simpa [usesScratch] using h)]
        · rw [if_neg (by simp), if_neg (by simp), if_neg (by simp), if_neg fun hc => h hc.2]
          exact hfall
        all_goals simp

/-- **Arithmetic on 32 bits.** -/
theorem touches_alu32 (op : AluOp) (d : Reg) {src : Operand}
    (hsrc : ∀ p, src = .reg p → ∃ s, p = physOf s) :
    ∃ ws, emitAlu32Node (ε := ε) op (physOf d) src = .ok ws ∧ ws ≠ [] ∧
      Touches ws ({d} ∪ scratch (.alu32 op (physOf d) src)) := by
  cases src with
  | reg p =>
    obtain ⟨s, rfl⟩ := hsrc p rfl
    obtain ⟨ws, hws, hne, htouch⟩ := touches_alu32_reg (ε := ε) op d s
    exact ⟨ws, hws, hne, htouch.mono Set.subset_union_left⟩
  | imm v =>
    have hfall := touches_fallback (ε := ε) v (touches_alu32_reg op d 23)
    cases op with
    | neg =>
      exact ⟨_, by rw [emitAlu32Node]; rfl, by simp,
        (touches_opWord 0x20 0 rfl d 0 d).mono Set.subset_union_left⟩
    | _ =>
      rw [emitAlu32Node, scratch_eq rfl]
      · exact hfall
      all_goals simp

end

/-! ### Memory -/

theorem alters_load (width : MemWidth) (d s : Reg) (off : I16) :
    Alters (emitLoadNode width (physOf d) (physOf s) off) {d} := by
  have hload : ∀ funct3 : BitVec 3, funct3 ≠ 7 → Alters [iType (off.signExtend 32) (s.setWidth 8)
      (funct3.setWidth 32) (d.setWidth 8) 0x03] {d} := fun funct3 h =>
    Effects.word (decode_load funct3 h d s _) rfl fun c _ hr => c.set_x_of_ne _ hr
  cases width with
  | b => exact hload 4 (by decide)
  | h => exact hload 5 (by decide)
  | w => exact hload 6 (by decide)
  | dw => exact hload 3 (by decide)

theorem alters_store (width : MemWidth) (s1 s2 : Reg) (off : I16) (S : Set Reg) :
    Alters (emitStoreNode width (physOf s1) (physOf s2) off) S := by
  have hstore : ∀ funct3 : BitVec 3, field funct3 2 1 = 0 → Alters [sType (off.signExtend 32)
      (s2.setWidth 8) (s1.setWidth 8) (funct3.setWidth 32) 0x23] S := fun funct3 h =>
    alters_word (decode_store funct3 h s2 s1 _) rfl fun _ => rfl
  cases width with
  | b => exact hstore 0 (by decide)
  | h => exact hstore 1 (by decide)
  | w => exact hstore 2 (by decide)
  | dw => exact hstore 3 (by decide)

/-- The address of an atomic operation goes to the scratch register. -/
theorem alters_address (base : Reg) (off : I16) : Alters [addressWord (physOf base) off] {23} := by
  unfold addressWord
  split_ifs
  · exact (touches_addi 23 base _).alters
  · exact (touches_addi 23 base 0).alters

theorem alters_fence (S : Set Reg) : Alters [fenceRwRw] S :=
  alters_word (i := .fence) (by decide) rfl fun _ => rfl

section

variable (E : Env → Prop) {I : Cpu → Prop}
  (hI : ∀ c c' : Cpu, (∀ r, r ≠ 23 → c'.x r = c.x r) → I c → I c')

include hI

/-- The operations with one instruction. -/
theorem stays_amo (funct5 : BitVec 5) {f : AmoOp} (h : amoOp funct5 = some f) (s2 s1 : Reg) :
    Stays E I [amo (funct5.setWidth 32) true true (s2.setWidth 8) (s1.setWidth 8) 3 0] :=
  Stays.word (decode_amo funct5 h 0 s2 s1) (by simp)
    (fun _ _ c hc => hI c _ (fun _ _ => rfl) hc) fun _ => rfl

/-- Compare-and-exchange is a loop of four words. -/
theorem stays_exchange (op : AtomicOp) (src : Reg) :
    Stays E I (exchangeWords op (physOf src)) := by
  cases op with
  | add | fetchAdd => exact stays_amo E hI 0 rfl src 23
  | or | fetchOr => exact stays_amo E hI 8 rfl src 23
  | and | fetchAnd => exact stays_amo E hI 0x0C rfl src 23
  | xor | fetchXor => exact stays_amo E hI 4 rfl src 23
  | xchg => exact stays_amo E hI 1 rfl src 23
  | cmpXchg =>
    have hset : ∀ (c c' : Cpu) (v : U64), c'.x = c.x → I c → I (c'.set 23 v) := by
      intro c c' v hx hc
      refine hI c _ (fun r hr => ?_) hc
      rw [c'.set_x_of_ne v hr, hx]
    intro k w hk
    have hlt : k < 4 := (List.getElem?_eq_some_iff.1 hk).1
    have hlen : (exchangeWords .cmpXchg (physOf src)).length = 4 := rfl
    rw [hlen]
    interval_cases k <;> cases hk
    · exact ⟨.loadReserved 23 23, by decide, by simp,
        fun env pc c _ hc => ⟨hset c _ _ rfl hc, 1, by omega, rfl⟩⟩
    · refine ⟨.branch .ne 23 10 6, by decide, by simp, fun env pc c _ hc => ⟨hc, ?_⟩⟩
      dsimp only [Instr.displacement]
      split_ifs
      · exact ⟨4, by omega, rfl⟩
      · exact ⟨2, by omega, rfl⟩
    · refine ⟨.storeConditional 23 src 23, decode_scD 23 src 23, by simp,
        fun env pc c _ hc => ⟨?_, 3, by omega, rfl⟩⟩
      dsimp only [Instr.exec]
      split_ifs
      · exact hset c _ _ rfl hc
      · exact hset c _ _ rfl hc
    · refine ⟨.branch .ne 23 0 (-6), by decide, by simp, fun env pc c _ hc => ⟨hc, ?_⟩⟩
      dsimp only [Instr.displacement]
      split_ifs
      · exact ⟨0, by omega, rfl⟩
      · exact ⟨4, by omega, rfl⟩

/-- **Atomic operations** change no register but the scratch register. -/
theorem stays_atomic (op : AtomicOp) (base src : Reg) (off : I16) :
    Stays E I (atomicWords op (physOf base) (physOf src) off) := by
  have haddress : Stays E I [addressWord (physOf base) off] := (alters_address base off).stays hI
  have hfence : Stays E I [fenceRwRw] := (alters_fence {23}).stays hI
  exact haddress.append (hfence.append ((stays_exchange E hI op src).append hfence))

end

end NVMirror.Riscv
