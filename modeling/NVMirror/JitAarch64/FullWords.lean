import NVMirror.JitAarch64.Branch
import NVMirror.JitAarch64.Full
import NVMirror.Library.Until

/-!
# Words on the full machine

* `Line.leaves`: the full machine runs through a line of the machine on registers.
* `Alters E ws S`: no word that has a meaning changes a register outside `S`.
* `alters_load`, `alters_store`: loads and stores change the transferred register at most, whatever
  the offset; `alters_atomic`, `alters_endian`, `alters_call`: the other nodes.
-/

namespace NVMirror.Aarch64

open Rust Bytes Temporal

namespace Full

variable {E : Env → Prop} {code : List U8} {pc : ℤ} {w : U32} {c : Cpu} {m' : Machine}
  {R : Machine → Machine → Prop} {Q P : Machine → Prop}

/-! ### Steps -/

theorem decode_of_base {i : Aarch64.Instr} (h : Aarch64.decode w = some i) :
    decode w = some (.base i) := by
  rw [decode, h]

theorem step_eq (env : Env) (hfetch : fetchU32 code pc = some w) {i : Instr}
    (hdecode : decode w = some i) (c : Cpu) : step env code ⟨c, pc⟩ =
      if i.traps env c then panic else .ok ⟨i.exec env pc c, pc + i.displacement c⟩ := by
  unfold step
  rw [hfetch]
  dsimp only
  rw [hdecode]
  rfl

theorem step_of_fetch (env : Env) (hfetch : fetchU32 code pc = some w) {i : Instr}
    (hdecode : decode w = some i) (htraps : i.traps env c = false) :
    step env code ⟨c, pc⟩ = .ok ⟨i.exec env pc c, pc + i.displacement c⟩ := by
  rw [step_eq env hfetch hdecode, htraps]
  rfl

/-- An alignment fault. -/
theorem step_of_traps (env : Env) (hfetch : fetchU32 code pc = some w) {i : Instr}
    (hdecode : decode w = some i) (htraps : i.traps env c = true) :
    step env code ⟨c, pc⟩ = panic := by
  rw [step_eq env hfetch hdecode, if_pos htraps]

/-- What a step does; the word has a meaning. -/
theorem Moves.eq (h : Moves E code ⟨c, pc⟩ m') (hfetch : fetchU32 code pc = some w) :
    ∃ env i, E env ∧ decode w = some i ∧ m' = ⟨i.exec env pc c, pc + i.displacement c⟩ := by
  obtain ⟨env, hE, hstep⟩ := h
  cases hdecode : decode w with
  | none =>
    unfold step at hstep
    rw [hfetch] at hstep
    dsimp only at hstep
    rw [hdecode] at hstep
    cases hstep
  | some i =>
    cases htraps : i.traps env c with
    | true =>
      rw [step_of_traps env hfetch hdecode htraps] at hstep
      cases hstep
    | false =>
      rw [step_of_fetch env hfetch hdecode htraps] at hstep
      exact ⟨env, i, hE, rfl, (Except.ok.inj hstep).symm⟩

theorem Moves.eq_base (h : Moves E code ⟨c, pc⟩ m') (hfetch : fetchU32 code pc = some w)
    {i : Aarch64.Instr} (hdecode : Aarch64.decode w = some i) :
    m' = ⟨i.exec c, pc + i.displacement c⟩ := by
  obtain ⟨env, i', -, hdecode', rfl⟩ := h.eq hfetch
  rw [decode_of_base hdecode] at hdecode'
  cases hdecode'
  rfl

/-! ### Lines -/

/-- **The machine runs through a line.** -/
theorem until_line (hR : ∀ m m', R m m' → Moves E code m m') {ws : List U32} {c c' : Cpu}
    (h : Line ws c c') (hcode : CodeAt code pc ws)
    (hQ : ∀ (k : ℕ) (c : Cpu), k < ws.length → Q ⟨c, pc + 4 * k⟩)
    (hP : P ⟨c', pc + 4 * ws.length⟩) : Until R Q P ⟨c, pc⟩ := by
  induction h generalizing pc with
  | nil c =>
    refine Until.now ?_
    rwa [List.length_nil, Nat.cast_zero, mul_zero, add_zero] at hP
  | @cons w i ws c c' hdecode hstraight hrest ih =>
    have hfetch : fetchU32 code pc = some w := by
      have h0 := hcode 0 w rfl
      rwa [Nat.cast_zero, mul_zero, add_zero] at h0
    have hnext : ∀ k : ℕ, pc + 4 * ((k + 1 : ℕ) : ℤ) = pc + 4 + 4 * (k : ℤ) := by
      intro k
      push_cast
      ring
    refine Leaves.until ⟨?_, fun m hm => ?_⟩
    · have h0 := hQ 0 c (by simp)
      rwa [Nat.cast_zero, mul_zero, add_zero] at h0
    · rw [(hR _ _ hm).eq_base hfetch hdecode, Instr.displacement_of_isStraight hstraight]
      refine ih (fun k w hk => ?_) (fun k c hk => ?_) ?_
      · rw [← hnext]
        exact hcode (k + 1) w hk
      · rw [← hnext]
        exact hQ (k + 1) c (Nat.succ_lt_succ hk)
      · rw [← hnext]
        exact hP

/-- A line that is not empty. -/
theorem leaves_line (hR : ∀ m m', R m m' → Moves E code m m') {ws : List U32} {c c' : Cpu}
    (h : Line ws c c') (hcode : CodeAt code pc ws) (hne : ws ≠ [])
    (hQ : ∀ (k : ℕ) (c : Cpu), k < ws.length → Q ⟨c, pc + 4 * k⟩)
    (hP : P ⟨c', pc + 4 * ws.length⟩) : Leaves R Q P ⟨c, pc⟩ := by
  have hlen := List.length_pos_iff.2 hne
  have huntil : Until R Q (fun m => P m ∧ m.pc = pc + 4 * ws.length) ⟨c, pc⟩ :=
    until_line hR h hcode hQ ⟨hP, rfl⟩
  exact huntil.leaves_of_not (fun hend => by have := hend.2; dsimp only at this; omega)
    fun _ hend => hend.1

/-- **A run through a line.** -/
theorem run_line {env : Env} {ws : List U32} {c c' : Cpu} (h : Line ws c c')
    (hcode : CodeAt code pc ws) (hR : ∀ m m', pc ≤ m.pc → step env code m = .ok m' → R m m') :
    Relation.ReflTransGen R ⟨c, pc⟩ ⟨c', pc + 4 * ws.length⟩ := by
  induction h generalizing pc with
  | nil c =>
    rw [List.length_nil, Nat.cast_zero, mul_zero, add_zero]
  | @cons w i ws c c' hdecode hstraight hrest ih =>
    have hnext : ∀ k : ℕ, pc + 4 * ((k + 1 : ℕ) : ℤ) = pc + 4 + 4 * (k : ℤ) := by
      intro k
      push_cast
      ring
    have hfetch : fetchU32 code pc = some w := by
      have h0 := hcode 0 w rfl
      rwa [Nat.cast_zero, mul_zero, add_zero] at h0
    have hstep : step env code ⟨c, pc⟩ = .ok ⟨i.exec c, pc + 4⟩ := by
      rw [step_of_fetch env hfetch (decode_of_base hdecode) rfl]
      exact congrArg (fun d => Except.ok (Machine.mk (i.exec c) (pc + d)))
        (Instr.displacement_of_isStraight hstraight c)
    rw [List.length_cons, hnext]
    refine Relation.ReflTransGen.head (hR _ _ le_rfl hstep)
      (ih (fun k w hk => ?_) fun m m' hm => hR m m' (by omega))
    rw [← hnext]
    exact hcode (k + 1) w hk

/-! ### What words change -/

/-- In the environments of `E`, no word that has a meaning changes a register outside `S`; the next
word follows. -/
def Alters (E : Env → Prop) (ws : List U32) (S : Set Reg) : Prop :=
  ∀ w ∈ ws, ∀ i, decode w = some i → ∀ env pc c, E env →
    (∀ r, r ∉ S → (i.exec env pc c).x r = c.x r) ∧ i.displacement c = 4

namespace Alters

variable {ws ws' : List U32} {S T : Set Reg}

theorem append (h : Alters E ws S) (h' : Alters E ws' S) : Alters E (ws ++ ws') S := by
  intro w hw
  rcases List.mem_append.1 hw with hw | hw
  · exact h w hw
  · exact h' w hw

theorem mono (h : Alters E ws S) (hST : S ⊆ T) : Alters E ws T := by
  intro w hw i hdecode env pc c hE
  obtain ⟨hkeep, hdisp⟩ := h w hw i hdecode env pc c hE
  exact ⟨fun r hr => hkeep r fun hS => hr (hST hS), hdisp⟩

/-- One word, with its meaning. -/
theorem word {i : Instr} (hdecode : decode w = some i)
    (hexec : ∀ env pc c, E env → ∀ r, r ∉ S → (i.exec env pc c).x r = c.x r)
    (hdisp : ∀ c, i.displacement c = 4) : Alters E [w] S := by
  intro w' hw' i' hdecode' env pc c hE
  rw [List.mem_singleton.1 hw', hdecode] at hdecode'
  cases hdecode'
  exact ⟨hexec env pc c hE, hdisp c⟩

end Alters

/-- An instruction on registers that writes `d`. -/
theorem alters_base {i : Aarch64.Instr} (hdecode : Aarch64.decode w = some i)
    (hstraight : i.isStraight) {d : Reg}
    (hexec : ∀ c, ∃ (c' : Cpu) (v : U64), i.exec c = c'.set d v ∧ c'.x = c.x) :
    Alters E [w] {d} := by
  refine Alters.word (decode_of_base hdecode) (fun env pc c _ r hr => ?_)
    (Aarch64.Instr.displacement_of_isStraight hstraight)
  obtain ⟨c', v, hset, hx⟩ := hexec c
  show (i.exec c).x r = c.x r
  rw [hset, c'.set_x_of_ne v hr, hx]

/-- Constants. -/
theorem alters_loadImm64 (d : Reg) (imm : U64) :
    Alters E (emitLoadImm64 (physOf d) imm) {d} := by
  have hchunk : ∀ i, 1 ≤ i → i < 4 → Alters E (movkChunk (physOf d) imm i) {d} := by
    intro i hi hi4
    unfold movkChunk
    split_ifs
    · have hop : IsMovWide (0xF2800000 ||| (((BitVec.ofNat 8 i).setWidth 32 &&& 3) <<< 21)) true
          true (BitVec.ofNat 2 i) := by
        interval_cases i <;> decide
      exact alters_base (decode_movWide hop d (chunk imm i)) rfl fun c => ⟨c, _, rfl, rfl⟩
    · intro w hw
      cases hw
  have hop : IsMovWide (0xD2800000 ||| (((0 : U8).setWidth 32 &&& 3) <<< 21)) false true 0 := by
    decide
  have hmovz : Alters E [movzX (physOf d).num (chunk imm 0) 0] {d} :=
    alters_base (decode_movWide hop d (chunk imm 0)) rfl fun c => ⟨c, _, rfl, rfl⟩
  rw [emitLoadImm64_eq]
  exact hmovz.append (((hchunk 1 (by omega) (by omega)).append
    (hchunk 2 (by omega) (by omega))).append (hchunk 3 (by omega) (by omega)))

/-! ### Loads and stores -/

/-- A field of a field. -/
theorem field_field (w : U32) {lo len a len' : ℕ} (h : a + len' ≤ len) :
    (field w lo len).extractLsb' a len' = field w (lo + a) len' := by
  unfold field
  ext i hi
  have hlt : a + i < len := by omega
  simp [hlt, Nat.add_assoc]

/-- The group of the loads and stores of one register, with an offset. -/
abbrev IsMemory (w : U32) : Prop := field w 26 4 = 0b1110#4 ∧ field w 24 1 = 1#1

section

variable (h : IsMemory w)

include h

/-- No other opcode has the bits of the group. -/
theorem IsMemory.field_ne {lo len : ℕ} (a : ℕ) (v : BitVec len) (hlo : lo + a = 26)
    (hlen : a + 4 ≤ len) (hv : v.extractLsb' a 4 ≠ 0b1110#4) : field w lo len ≠ v := by
  rintro rfl
  rw [field_field w hlen, hlo] at hv
  exact hv h.1

theorem IsMemory.decode_base {i : Aarch64.Instr} (hdecode : Aarch64.decode w = some i) :
    field w 30 2 = 3#2 ∧
      ∃ load, i = .loadStore load (field w 0 5) (field w 5 5) (field w 10 12) := by
  have h26 : field w 26 3 = 0b110#3 := by
    have hbits : (field w 26 4).extractLsb' 0 3 = field w 26 3 := field_field w (by decide)
    rw [← hbits, h.1]
    decide
  have hdata : decodeData w = none := by
    have hop : dataOp (field w 21 10) (field w 10 6) = none := by
      unfold dataOp
      split_ifs
      all_goals first
        | rfl
        | rename_i hhi
          exact absurd hhi.1 (h.field_ne 5 _ rfl (by decide) (by decide))
    unfold decodeData
    dsimp only
    rw [if_neg (h.field_ne 5 _ rfl (by decide) (by decide)), hop]
    rfl
  unfold Aarch64.decode at hdecode
  rw [h26, if_neg (by decide), if_neg (by decide), hdata] at hdecode
  split_ifs at hdecode
  unfold decodeLoadStore at hdecode
  dsimp only at hdecode
  rw [if_neg (c := field w 23 9 = _) (h.field_ne 3 _ rfl (by decide) (by decide)),
    if_neg (c := field w 23 9 = _) (h.field_ne 3 _ rfl (by decide) (by decide)),
    if_neg (c := field w 23 9 = _) (h.field_ne 3 _ rfl (by decide) (by decide))] at hdecode
  split_ifs at hdecode with hop
  cases hdecode
  have hsize : (field w 22 10).extractLsb' 8 2 = field w 30 2 := field_field w (by decide)
  refine ⟨?_, _, rfl⟩
  rcases hop with hop | hop <;>
  · rw [← hsize, hop]
    decide

/-- **What such a word can mean**, whatever the offset has done to its opcode. -/
theorem IsMemory.decode_eq {i : Instr} (hdecode : decode w = some i) :
    (∃ kind, i = .loadStore kind (field w 30 2) (field w 0 5) (field w 5 5) (field w 10 12)) ∨
      field w 30 2 = 3#2 ∧
        ∃ load, i = .base (.loadStore load (field w 0 5) (field w 5 5) (field w 10 12)) := by
  unfold decode at hdecode
  cases hbase : Aarch64.decode w with
  | some i' =>
    rw [hbase] at hdecode
    cases hdecode
    obtain ⟨hsize, load, rfl⟩ := h.decode_base hbase
    exact Or.inr ⟨hsize, load, rfl⟩
  | none =>
    rw [hbase] at hdecode
    refine Or.inl ?_
    have h24 : field w 24 8 ≠ 0b11111000#8 := by
      intro heq
      have hbit : (field w 24 8).extractLsb' 0 1 = field w 24 1 := field_field w (by decide)
      rw [heq, h.2] at hbit
      exact absurd hbit (by decide)
    have hrev : revOp (field w 21 11) (field w 10 6) = none := by
      unfold revOp
      split_ifs
      all_goals first
        | rfl
        | rename_i hhi
          exact absurd hhi.1 (h.field_ne 5 _ rfl (by decide) (by decide))
    dsimp only at hdecode
    unfold decodeMore at hdecode
    dsimp only at hdecode
    by_cases hmem : field w 24 6 = 0b111001
    · rw [if_pos hmem] at hdecode
      obtain ⟨kind, -, rfl⟩ := Option.map_eq_some_iff.1 hdecode
      exact ⟨kind, rfl⟩
    · rw [if_neg hmem, if_neg fun hc => h24 hc.1,
        if_neg fun hc => h.field_ne 3 _ rfl (by decide) (by decide) hc.1,
        if_neg fun hc => h.field_ne 14 _ rfl (by decide) (by decide) hc.1,
        if_neg fun hc => h.field_ne 4 _ rfl (by decide) (by decide) hc.1,
        if_neg fun hc => h.field_ne 16 _ rfl (by decide) (by decide) hc.1, hrev] at hdecode
      split_ifs at hdecode
      cases hdecode

end

/-- The transferred register is the only one that changes, and only by a load. -/
theorem IsMemory.exec_x (h : IsMemory w) {i : Instr} (hdecode : decode w = some i) (env : Env)
    (pc : ℤ) (c : Cpu) {r : Reg} (hr : r ≠ field w 0 5 ∨ i.loads = false) :
    (i.exec env pc c).x r = c.x r := by
  rcases h.decode_eq hdecode with ⟨kind, rfl⟩ | ⟨-, load, rfl⟩
  · cases kind with
    | store | prefetch => rfl
    | _ => exact c.set_x_of_ne _ (hr.resolve_right (by simp [Instr.loads]))
  · cases load with
    | false => rfl
    | true => exact c.set_x_of_ne _ (hr.resolve_right (by simp [Instr.loads]))

theorem IsMemory.displacement_eq (h : IsMemory w) {i : Instr} (hdecode : decode w = some i)
    (c : Cpu) : i.displacement c = 4 := by
  rcases h.decode_eq hdecode with ⟨kind, rfl⟩ | ⟨-, load, rfl⟩ <;> rfl

/-- The opcode of a load or store. -/
abbrev IsLdst (op : U32) : Prop :=
  field op 0 5 = 0#5 ∧ field op 26 4 = 0b1110#4 ∧ field op 24 1 = 1#1

theorem isMemory_ldst {op : U32} (h : IsLdst op) (scale : ℕ) (t n : Reg) (off : I16) :
    IsMemory (ldst op scale (t.setWidth 8) (n.setWidth 8) off) ∧
      field (ldst op scale (t.setWidth 8) (n.setWidth 8) off) 0 5 = t := by
  obtain ⟨ht, hgroup, h24⟩ := h
  have hone : ∀ x : BitVec 1, 1#1 ||| x = 1#1 := by decide
  unfold ldst IsMemory
  generalize off >>> scale = scaled
  simp [ht, hgroup, h24, hone]

/-- One load or store. -/
theorem alters_ldst {op : U32} (h : IsLdst op) (scale : ℕ) (t n : Reg) (off : I16) {S : Set Reg}
    (hS : t ∈ S ∨ ∀ i, decode (ldst op scale (t.setWidth 8) (n.setWidth 8) off) = some i →
      i.loads = false) :
    Alters E [ldst op scale (t.setWidth 8) (n.setWidth 8) off] S := by
  intro w hw i hdecode env pc c _
  obtain ⟨hmem, ht⟩ := isMemory_ldst h scale t n off
  rw [List.mem_singleton.1 hw] at hdecode
  refine ⟨fun r hr => hmem.exec_x hdecode env pc c ?_, hmem.displacement_eq hdecode c⟩
  rcases hS with hS | hS
  · rw [ht]
    exact Or.inl (ne_of_mem_of_not_mem hS hr).symm
  · exact Or.inr (hS i hdecode)

/-- **Loads** change the register they load. -/
theorem alters_load (width : MemWidth) (d s : Reg) (off : I16) :
    Alters E (emitLoadNode width (physOf d) (physOf s) off) {d} := by
  have hd : d ∈ ({d} : Set Reg) := rfl
  cases width <;> exact alters_ldst (by decide) _ d s off (Or.inl hd)

/-- **Stores**: a store that is not encoded as one loads the register it should store. -/
theorem alters_store (width : MemWidth) (d s : Reg) (off : I16) {S : Set Reg}
    (hS : s ∈ S ∨ ∀ w ∈ emitStoreNode width (physOf d) (physOf s) off, ∀ i,
      decode w = some i → i.loads = false) :
    Alters E (emitStoreNode width (physOf d) (physOf s) off) S := by
  cases width <;>
    exact alters_ldst (by decide) _ s d off
      (hS.imp_right fun hno => hno _ (List.mem_singleton_self _))

/-! ### Atomics, byte reversal and calls -/

/-- The opcode of an atomic memory instruction. -/
abbrev IsAtomic (op : U32) (fn : AtomicFn) : Prop :=
  field op 0 5 = 0#5 ∧ field op 5 5 = 0#5 ∧ field op 16 5 = 0#5 ∧ field op 26 3 = 0b110#3 ∧
    field op 25 3 = 0b100#3 ∧ field op 27 1 = 1#1 ∧ field op 25 1 = 0#1 ∧
    field op 22 10 = 0b1111100011#10 ∧ field op 23 9 = 0b111110001#9 ∧
    field op 24 6 ≠ 0b111001#6 ∧ field op 24 8 = 0b11111000#8 ∧ field op 21 1 = 1#1 ∧
    field op 10 2 = 0#2 ∧ atomicFn (field op 15 1) (field op 12 3) = some fn

theorem decode_atomic {op : U32} {fn : AtomicFn} (h : IsAtomic op fn) (s t n : Reg) :
    decode (rrr op (t.setWidth 8) (n.setWidth 8) (s.setWidth 8)) = some (.atomic fn s t n) := by
  obtain ⟨ht, hn, hs, h26, h25, h27, h25', h22, h23, h24, h24', h21, h10, hfn⟩ := h
  simp [decode, Aarch64.decode, decodeLoadStore, decodeMore, rrr, ht, hn, hs, h26, h25, h27, h25',
    h22, h23, h24, h24', h21, h10, hfn]

theorem decode_cas (s t n : Reg) :
    decode (casX (s.setWidth 8) (t.setWidth 8) (n.setWidth 8)) = some (.cas s t n) := by
  obtain ⟨op, hop⟩ : ∃ op : U32, op = 0xC8E07C00 := ⟨_, rfl⟩
  have hfields : field op 0 5 = 0#5 ∧ field op 5 5 = 0#5 ∧ field op 16 5 = 0#5 ∧
      field op 26 3 = 0b010#3 ∧ field op 25 3 = 0b100#3 ∧ field op 27 1 = 1#1 ∧
      field op 25 1 = 0#1 ∧ field op 22 10 = 0b1100100011#10 ∧ field op 23 9 = 0b110010001#9 ∧
      field op 24 6 = 0b001000#6 ∧ field op 24 8 = 0b11001000#8 ∧ field op 21 1 = 1#1 ∧
      field op 10 5 = 31#5 := by
    rw [hop]
    decide
  obtain ⟨ht, hn, hs, h26, h25, h27, h25', h22, h23, h24, h24', h21, h10⟩ := hfields
  unfold casX
  rw [← hop]
  simp [decode, Aarch64.decode, decodeLoadStore, decodeMore, rrr, ht, hn, hs, h26, h25, h27, h25',
    h22, h23, h24, h24', h21, h10]

/-- **Atomics** change `X9`, and `X0` where they compare with it. -/
theorem alters_atomic (op : AtomicOp) (d s : Reg) (off : I16) :
    Alters E (emitAtomicNode op (physOf d) (physOf s) off) {9, 0} := by
  have h9 : ∀ {ws : List U32}, Alters E ws {9} → Alters E ws {9, 0} := fun h =>
    h.mono (Set.singleton_subset_iff.2 (Set.mem_insert 9 {0}))
  have haddress : Alters E (if off ≠ 0 then
      emitLoadImm64 tmp (off.signExtend 64) ++ [addXReg tmp.num (physOf d).num tmp.num]
      else [movXReg tmp.num (physOf d).num]) {9, 0} := by
    refine h9 ?_
    split_ifs
    · exact (alters_loadImm64 9 _).append (alters_base (i := .data .add true 9 d 9)
        (decode_rrr (by decide) 9 d 9) rfl fun c => ⟨_, _, rfl, rfl⟩)
    · exact alters_base (i := .data .orr true 9 31 d) (decode_rrr (by decide) 9 31 d) rfl
        fun c => ⟨_, _, rfl, rfl⟩
  have hdmb : Alters E [dmbIsh] {9, 0} :=
    Alters.word (i := .barrier) (by decide) (fun _ _ _ _ _ _ => rfl) fun _ => rfl
  have hatomic : ∀ (fn : AtomicFn) {op : U32}, IsAtomic op fn →
      Alters E [rrr op 31 9 (s.setWidth 8)] {9, 0} := by
    intro fn op hop
    refine Alters.word (decode_atomic hop s 31 9) (fun env pc c _ r _ => ?_) fun _ => rfl
    rfl
  have hword : Alters E [atomicWord op (physOf s) tmp] {9, 0} := by
    cases op with
    | cmpXchg =>
      refine Alters.word (decode_cas 0 s 9) (fun env pc c _ r hr => ?_) fun _ => rfl
      have hr0 : r ≠ 0 := fun h => hr (Or.inr h)
      dsimp only [Instr.exec]
      rw [Cpu.set_x_of_ne _ _ hr0]
      split_ifs <;> rfl
    | add | fetchAdd => exact hatomic .add (by decide)
    | or | fetchOr => exact hatomic .set (by decide)
    | and | fetchAnd => exact hatomic .clr (by decide)
    | xor | fetchXor => exact hatomic .eor (by decide)
    | xchg => exact hatomic .swp (by decide)
  unfold emitAtomicNode
  exact haddress.append (hdmb.append (hword.append hdmb))

/-- The opcode of a byte reversal. -/
abbrev IsRev (op : U32) (rev : RevOp) : Prop :=
  field op 0 5 = 0#5 ∧ field op 5 5 = 0#5 ∧ field op 16 5 = 0#5 ∧ field op 26 3 = 0b110#3 ∧
    field op 25 3 = 0b101#3 ∧ field op 21 10 = 0b1011010110#10 ∧ field op 24 6 = 0b011010#6 ∧
    field op 24 8 ≠ 0b11111000#8 ∧ field op 23 9 ≠ 0b110010001#9 ∧ field op 12 20 ≠ 0xD5033#20 ∧
    field op 22 10 ≠ 0b1001001001#10 ∧ field op 10 22 ≠ 0b1101011000111111000000#22 ∧
    revOp (field op 21 11) (field op 10 6) = some rev

theorem decode_rev {op : U32} {rev : RevOp} (h : IsRev op rev) (d n : Reg) :
    decode (rr op (d.setWidth 8) (n.setWidth 8)) = some (.rev rev d n) := by
  obtain ⟨hd, hn, hm, h26, h25, h21, h24, h24', h23, h12, h22, h10, hrev⟩ := h
  simp [decode, Aarch64.decode, decodeData, dataOp, decodeMore, rr, hd, hn, hm, h26, h25, h21, h24,
    h24', h23, h12, h22, h10, hrev]

/-- The mask of a halfword; its source register is another one, because two bits of the opcode
stand in its field. -/
theorem decode_andXImmMask (d n : Reg) (mask : U16) :
    decode (andXImmMask (d.setWidth 8) (n.setWidth 8) mask) =
      some (.andImm d (0b11000#5 ||| n) 0 3) := by
  obtain ⟨op, hop⟩ : ∃ op : U32, op = 0x92400F00 := ⟨_, rfl⟩
  have hfields : field op 0 5 = 0#5 ∧ field op 5 5 = 0b11000#5 ∧ field op 16 6 = 0#6 ∧
      field op 10 6 = 3#6 ∧ field op 26 3 = 0b100#3 ∧ field op 22 9 = 0b001001001#9 ∧
      field op 23 8 = 0b00100100#8 ∧ field op 22 10 = 0b1001001001#10 ∧
      field op 24 6 = 0b010010#6 ∧ field op 24 8 = 0b10010010#8 ∧ field op 23 9 = 0b100100100#9 ∧
      field op 12 20 = 0x92400#20 := by
    rw [hop]
    decide
  obtain ⟨hd, hn, himmr, himms, h26, h22, h23, h22', h24, h24', h23', h12⟩ := hfields
  unfold andXImmMask
  rw [← hop]
  simp [decode, Aarch64.decode, decodeImm, decodeMore, rr, hd, hn, himmr, himms, h26, h22, h23,
    h22', h24, h24', h23', h12]

/-- **Byte reversal** changes its register. -/
theorem alters_endian (toBe : Bool) (width : EndianWidth) {d : Reg} :
    Alters E (emitEndianNode toBe width (physOf d)) {d} := by
  have hrev : ∀ (rev : RevOp) {op : U32}, IsRev op rev →
      Alters E [rr op (d.setWidth 8) (d.setWidth 8)] {d} := fun rev op hop =>
    Alters.word (decode_rev hop d d) (fun env pc c _ r hr => c.set_x_of_ne _ hr) fun _ => rfl
  unfold emitEndianNode
  split_ifs
  · cases width with
    | bits16 =>
      refine Alters.append (hrev .rev16W (by decide)) (?_ : Alters E [_] {d})
      exact Alters.word (decode_andXImmMask d d 0xFFFF)
        (fun env pc c _ r hr => c.setSp_x_of_ne _ hr) fun _ => rfl
    | bits32 => exact hrev .revW (by decide)
    | bits64 => exact hrev .revX (by decide)
  · intro w hw
    cases hw

theorem decode_blr : decode (blr 9) = some (.blr 9) := by
  decide

/-- **Calls** give back the callee-saved registers. -/
theorem alters_call (hE : ∀ env, E env → env.CallsReturn) :
    Alters E [blr 9] {r | r ∉ calleeSaved} := by
  refine Alters.word decode_blr (fun env pc c henv r hr => ?_) fun _ => rfl
  have hmem : r ∈ calleeSaved := not_not.1 hr
  have h30 : ∀ r ∈ calleeSaved, r ≠ 30 := by decide
  exact ((hE env henv) _ _ r hmem).trans (c.set_x_of_ne _ (h30 r hmem))

end Full

end NVMirror.Aarch64
