import NVMirror.EbpfCore.Precision
import NVMirror.Library.RoundRobin

/-!
# What each pass of the dataflow analysis finds

Every instruction treats the registers apart (`transferAt_separable`), so what the analysis finds
out splits into single facts about instructions: that one is reached, and that a register may be
uninitialised before it.  `FlowEdge` says how a fact carries over to the next instruction, and a
pass in the order of the blocks is a pass of the round-robin iteration over these facts.

* `flowBlock_meets_found`, `flowPass_meets_found`: pass `k` leaves the blocks with exactly the
  facts found in the passes up to `k`, and reports whether there are new ones.
* `dataflowLoop_meets_found`: why the loop stops.
-/

namespace NVMirror

open Rust Leaders MustAnalysis RoundRobin

variable {insns : List Insn} {flags : List Bool} {F : Fault VerifyError → Prop}

/-! ### Single facts -/

/-- The facts before an instruction when `I` is initialised: it is reached (`none`), and the
registers outside `I` may be uninitialised (`some r`). -/
def FactAt (I : Set BpfReg) : Option BpfReg → Prop
  | none => True
  | some r => r ∉ I

/-- A fact before an instruction entails one after it. -/
def CarriesFact (t : Set BpfReg → Set BpfReg) : Option BpfReg → Option BpfReg → Prop
  | none, none => True
  | none, some r => r ∉ t Set.univ
  | some r, some q => q = r ∧ r ∉ t {r}ᶜ
  | some _, none => False

/-- The facts at the entry of the program. -/
def FlowSource (v : ℕ × Option BpfReg) : Prop := v.1 = 0 ∧ FactAt entryInits v.2

/-- A fact carries over along an edge of the program. -/
def FlowEdge (insns : List Insn) (u v : ℕ × Option BpfReg) : Prop :=
  Edge insns u.1 v.1 ∧ CarriesFact (transferAt insns u.1) u.2 v.2

/-- The fact is known when pass `k` visits its instruction: some path to it has at most `k`
backward edges. -/
abbrev Known (insns : List Insn) (k : ℕ) (v : ℕ × Option BpfReg) : Prop :=
  Within FlowSource (FlowEdge insns) Prod.fst k v

/-- The fact is known in pass `k` before instruction `p` is visited. -/
abbrev FoundAt (insns : List Insn) (k p : ℕ) (v : ℕ × Option BpfReg) : Prop :=
  Found FlowSource (FlowEdge insns) Prod.fst k p v

/-- Pass `k` finds a new fact about a leader. -/
def PassChanges (insns : List Insn) (k : ℕ) : Prop :=
  Changes FlowSource (FlowEdge insns) Prod.fst (fun v => IsLeader Insn.endsBlock insns v.1) k

/-- The registers initialised before `pc`, as far as pass `k` knows. -/
def knownInits (insns : List Insn) (k pc : ℕ) : Set BpfReg := {r | ¬ Known insns k (pc, some r)}

/-- Every instruction that pass `k` simulates passes its check. -/
def PassChecks (insns : List Insn) (k : ℕ) : Prop :=
  ∀ pc, Known insns k (pc, none) → CheckedAt insns pc (knownInits insns k pc)

/-- What is found after an instruction comes from single facts before it. -/
theorem factAt_transfer_iff {t : Set BpfReg → Set BpfReg} (ht : Separable t) {I : Set BpfReg}
    {l : Option BpfReg} : FactAt (t I) l ↔ ∃ l', FactAt I l' ∧ CarriesFact t l' l := by
  cases l with
  | none => exact ⟨fun _ => ⟨none, trivial, trivial⟩, fun _ => trivial⟩
  | some r =>
    constructor
    · intro hr
      rcases ht I r hr with hall | ⟨hI, hkeep⟩
      · exact ⟨none, trivial, hall _⟩
      · exact ⟨some r, hI, rfl, hkeep _ (fun h => h rfl)⟩
    · rintro ⟨l', hl', hcarries⟩
      cases l' with
      | none =>
        rcases ht _ r hcarries with hall | ⟨huniv, -⟩
        · exact hall I
        · exact absurd (Set.mem_univ r) huniv
      | some q =>
        obtain ⟨rfl, hcarries⟩ := hcarries
        rcases ht _ r hcarries with hall | ⟨-, hkeep⟩
        · exact hall I
        · exact hkeep I hl'

theorem FlowEdge.lt {u v : ℕ × Option BpfReg} (h : FlowEdge insns u v) : u.1 < insns.length :=
  h.1.lt

/-- Only jumps lead backward, and they lead to leaders. -/
theorem FlowEdge.isLeader_or_lt {u v : ℕ × Option BpfReg} (h : FlowEdge insns u v) :
    IsLeader Insn.endsBlock insns v.1 ∨ u.1 < v.1 := by
  obtain ⟨⟨-, insn, hinsn, ⟨-, hnext⟩ | hjump⟩, -⟩ := h
  · exact Or.inr (by omega)
  · exact Or.inl (Or.inr ⟨u.1, insn, hinsn, Or.inr hjump⟩)

/-! ### Inside a block -/

/-- An instruction that is no leader is reached from the one before it. -/
theorem eq_succ_of_edge (hmarks : Marks Insn.endsBlock insns flags) {p q : ℕ}
    (he : Edge insns p q) (hq : ¬ IsSet flags q) : q = p + 1 := by
  obtain ⟨hlt, insn, hinsn, ⟨-, hnext⟩ | ⟨off, hoff, htarget⟩⟩ := he
  · exact hnext
  · exact absurd (hmarks.isSet_target hinsn hoff hlt htarget) hq

section Block

variable {i s k : ℕ}

/-- What is known inside a block comes from the instruction before. -/
theorem known_succ_iff (hmarks : Marks Insn.endsBlock insns flags)
    (hs : (positions flags)[i]? = some s) {p : ℕ} (hp : s ≤ p) (hlt : p + 1 < blockStop flags i)
    {l : Option BpfReg} :
    Known insns k (p + 1, l) ↔
      ∃ l', Known insns k (p, l') ∧ CarriesFact (transferAt insns p) l' l := by
  have hset : ¬ IsSet flags (p + 1) := not_isSet_of_mem_block hs (by omega) hlt
  constructor
  · intro h
    cases h with
    | source h => exact absurd h.1 (Nat.succ_ne_zero p)
    | @forward k u v h e _ =>
      obtain rfl : p = u.1 := Nat.succ.inj (eq_succ_of_edge hmarks e.1 hset)
      exact ⟨u.2, h, e.2⟩
    | @any k u v h e =>
      obtain rfl : p = u.1 := Nat.succ.inj (eq_succ_of_edge hmarks e.1 hset)
      exact ⟨u.2, h.succ, e.2⟩
  · rintro ⟨l', h, hcarries⟩
    have hedge := (edge_iff_of_mem_block hmarks hs hp hlt).2 rfl
    exact h.forward ⟨hedge, hcarries⟩ (Nat.lt_succ_self p)

/-- What is known in a block that is reached with `I`. -/
theorem known_iff_factsFrom (hmarks : Marks Insn.endsBlock insns flags)
    (hs : (positions flags)[i]? = some s) {I : Set BpfReg}
    (hI : ∀ l, Known insns k (s, l) ↔ FactAt I l) {m : ℕ} (hm : s + m < blockStop flags i)
    (l : Option BpfReg) : Known insns k (s + m, l) ↔ FactAt (factsFrom insns s I m) l := by
  induction m generalizing l with
  | zero => exact hI l
  | succ m ih =>
    rw [← add_assoc, known_succ_iff hmarks hs (by omega) (by omega), factsFrom,
      factAt_transfer_iff (transferAt_separable insns _)]
    simp only [ih (by omega)]

/-- Nothing is known in a block that is not reached. -/
theorem not_known_of_start (hmarks : Marks Insn.endsBlock insns flags)
    (hs : (positions flags)[i]? = some s) (hno : ∀ l, ¬ Known insns k (s, l)) {m : ℕ}
    (hm : s + m < blockStop flags i) (l : Option BpfReg) : ¬ Known insns k (s + m, l) := by
  induction m generalizing l with
  | zero => exact hno l
  | succ m ih =>
    rw [← add_assoc, known_succ_iff hmarks hs (by omega) (by omega)]
    rintro ⟨l', h, -⟩
    exact ih (by omega) l' h

/-- The registers that are initialised in a block that is reached with `I`. -/
theorem factsFrom_eq_knownInits (hmarks : Marks Insn.endsBlock insns flags)
    (hs : (positions flags)[i]? = some s) {I : Set BpfReg}
    (hI : ∀ l, Known insns k (s, l) ↔ FactAt I l) {m : ℕ} (hm : s + m < blockStop flags i) :
    factsFrom insns s I m = knownInits insns k (s + m) := by
  ext r
  rw [knownInits, Set.mem_ofPred_eq, known_iff_factsFrom hmarks hs hI hm (some r)]
  exact not_not.symm

/-- What a pass finds about leaders in one block, it finds at the last instruction. -/
theorem found_blockStop_iff (hmarks : Marks Insn.endsBlock insns flags)
    (hs : (positions flags)[i]? = some s) {v : ℕ × Option BpfReg} (hv : IsSet flags v.1) :
    FoundAt insns k (blockStop flags i) v ↔ FoundAt insns k s v ∨
      ∃ l, Known insns k (blockStop flags i - 1, l) ∧
        FlowEdge insns (blockStop flags i - 1, l) v := by
  have hlt := start_lt_blockStop hs
  constructor
  · rintro (h | h | ⟨u, hu, hustop, e⟩)
    · exact Or.inl (Or.inl h)
    · exact Or.inl (Or.inr (Or.inl h))
    · by_cases hus : u.1 < s
      · exact Or.inl (Or.inr (Or.inr ⟨u, hu, hus, e⟩))
      · have hlast : u.1 = blockStop flags i - 1 := by
          by_contra hne
          have hnext := (edge_iff_of_mem_block hmarks hs (by omega) (by omega)).1 e.1
          exact not_isSet_of_mem_block hs (by omega) (by omega) (hnext ▸ hv)
        obtain ⟨pc, l⟩ := u
        subst hlast
        exact Or.inr ⟨l, hu, e⟩
  · rintro (h | ⟨l, hl, e⟩)
    · exact h.mono hlt.le
    · exact Or.inr (Or.inr ⟨_, hl, Nat.sub_one_lt (by omega), e⟩)

/-- In a block that is reached with `I`, that is what the last instruction leaves. -/
theorem found_blockStop_of_reached (hmarks : Marks Insn.endsBlock insns flags)
    (hs : (positions flags)[i]? = some s) {I : Set BpfReg}
    (hI : ∀ l, Known insns k (s, l) ↔ FactAt I l) {v : ℕ × Option BpfReg} (hv : IsSet flags v.1) :
    FoundAt insns k (blockStop flags i) v ↔ FoundAt insns k s v ∨
      Edge insns (blockStop flags i - 1) v.1 ∧
        FactAt (factsFrom insns s I (blockStop flags i - s)) v.2 := by
  have hlt := start_lt_blockStop hs
  obtain ⟨m, hm⟩ : ∃ m, blockStop flags i = s + m + 1 := ⟨blockStop flags i - s - 1, by omega⟩
  have hfact : FactAt (factsFrom insns s I (m + 1)) v.2 ↔ ∃ l, Known insns k (s + m, l) ∧
      CarriesFact (transferAt insns (s + m)) l v.2 := by
    rw [factsFrom, factAt_transfer_iff (transferAt_separable insns _)]
    simp only [known_iff_factsFrom hmarks hs hI (m := m) (by omega)]
  rw [found_blockStop_iff hmarks hs hv, hm, show s + m + 1 - s = m + 1 by omega,
    Nat.add_sub_cancel, hfact]
  refine or_congr_right ⟨?_, ?_⟩
  · rintro ⟨l, hl, he, hcarries⟩
    exact ⟨he, l, hl, hcarries⟩
  · rintro ⟨he, l, hl, hcarries⟩
    exact ⟨l, hl, he, hcarries⟩

/-- In a block that is not reached nothing is found. -/
theorem found_blockStop_of_not_reached (hmarks : Marks Insn.endsBlock insns flags)
    (hs : (positions flags)[i]? = some s) (hno : ∀ l, ¬ Known insns k (s, l))
    {v : ℕ × Option BpfReg} (hv : IsSet flags v.1) :
    FoundAt insns k (blockStop flags i) v ↔ FoundAt insns k s v := by
  have hlt := start_lt_blockStop hs
  obtain ⟨m, hm⟩ : ∃ m, blockStop flags i = s + m + 1 := ⟨blockStop flags i - s - 1, by omega⟩
  rw [found_blockStop_iff hmarks hs hv, hm, Nat.add_sub_cancel]
  refine or_iff_left ?_
  rintro ⟨l, hl, -⟩
  exact not_known_of_start hmarks hs hno (by omega) l hl

end Block

/-! ### One block -/

/-- The facts recorded with a block. -/
def BasicBlock.Has (b : BasicBlock) (l : Option BpfReg) : Prop :=
  b.reachable = true ∧ FactAt b.regStateIn.inits l

/-- The blocks record the facts `T`. -/
structure Records (insns : List Insn) (flags : List Bool) (T : ℕ × Option BpfReg → Prop)
    (bbs : List BasicBlock) : Prop extends Cfg insns flags bbs where
  has_iff : ∀ (i : ℕ) (b : BasicBlock), bbs[i]? = some b → ∀ l, b.Has l ↔ T (b.start, l)

/-- During a pass that began with the facts `T₀`, the blocks record `T`. -/
structure InPass (insns : List Insn) (flags : List Bool) (T₀ T : ℕ × Option BpfReg → Prop)
    (acc : List BasicBlock × Bool) : Prop where
  records : Records insns flags T acc.1
  le : ∀ v, IsSet flags v.1 → T₀ v → T v
  changed_iff : acc.2 = true ↔ ∃ v, IsSet flags v.1 ∧ T v ∧ ¬ T₀ v

section Pass

variable {T₀ T T' N : ℕ × Option BpfReg → Prop} {bbs bbs' : List BasicBlock}

theorem Cfg.isSet_start (h : Cfg insns flags bbs) {j : ℕ} {b : BasicBlock}
    (hb : bbs[j]? = some b) : IsSet flags b.start ∧ rank flags b.start = j :=
  getElem?_positions_iff.1 (h.isBlock j b hb).start_eq

/-- Only what is recorded about leaders matters. -/
theorem InPass.congr {acc : List BasicBlock × Bool} (h : InPass insns flags T₀ T acc)
    (hT : ∀ v, IsSet flags v.1 → (T v ↔ T' v)) : InPass insns flags T₀ T' acc := by
  refine ⟨⟨h.records.toCfg, fun i b hb l => ?_⟩, fun v hv h0 => (hT v hv).1 (h.le v hv h0), ?_⟩
  · rw [h.records.has_iff i b hb l]
    exact hT (b.start, l) (h.records.isSet_start hb).1
  · rw [h.changed_iff]
    exact exists_congr fun v => and_congr_right fun hv => and_congr_left' (hT v hv)

/-- Recording the facts `N` as well. -/
theorem InPass.or {changed changed' : Bool} (h : InPass insns flags T₀ T (bbs, changed))
    (hrec : Records insns flags (fun v => T v ∨ N v) bbs')
    (hch : changed' = true ↔ changed = true ∨ ∃ v, IsSet flags v.1 ∧ N v ∧ ¬ T v) :
    InPass insns flags T₀ (fun v => T v ∨ N v) (bbs', changed') := by
  refine ⟨hrec, fun v hv h0 => Or.inl (h.le v hv h0), hch.trans ?_⟩
  constructor
  · rintro (hold | ⟨v, hv, hN, hT⟩)
    · obtain ⟨v, hv, hT, hno⟩ := h.changed_iff.1 hold
      exact ⟨v, hv, Or.inl hT, hno⟩
    · exact ⟨v, hv, Or.inr hN, fun h0 => hT (h.le v hv h0)⟩
  · rintro ⟨v, hv, hTN, hno⟩
    by_cases hT : T v
    · exact Or.inl (h.changed_iff.2 ⟨v, hv, hT, hno⟩)
    · exact Or.inr ⟨v, hv, hTN.resolve_left hT, hT⟩

/-- Adding the facts of `O` to those of one block. -/
theorem Records.set (h : Records insns flags T bbs) {j : ℕ} {b b' : BasicBlock} {O : Set BpfReg}
    (hb : bbs[j]? = some b) (hstart : b'.start = b.start) (hstop : b'.stop = b.stop)
    (hsucc : b'.successors = b.successors) (hhas : ∀ l, b'.Has l ↔ b.Has l ∨ FactAt O l) :
    Records insns flags (fun v => T v ∨ v.1 = b.start ∧ FactAt O v.2) (bbs.set j b') := by
  have hget : ∀ i c, (bbs.set j b')[i]? = some c →
      i = j ∧ c = b' ∨ i ≠ j ∧ bbs[i]? = some c := by
    intro i c hc
    rw [List.getElem?_set] at hc
    split_ifs at hc with hi hlt
    · cases hc
      exact Or.inl ⟨hi.symm, rfl⟩
    · exact Or.inr ⟨Ne.symm hi, hc⟩
  refine ⟨⟨by rw [List.length_set, h.length_eq], fun i c hc => ?_⟩, fun i c hc l => ?_⟩
  · rcases hget i c hc with ⟨rfl, rfl⟩ | ⟨-, hc⟩
    · have := h.isBlock i b hb
      exact ⟨hstart ▸ this.start_eq, hstop ▸ this.stop_eq, hsucc ▸ hstop ▸ this.mem_successors⟩
    · exact h.isBlock i c hc
  · rcases hget i c hc with ⟨rfl, rfl⟩ | ⟨hne, hc⟩
    · rw [hhas l, h.has_iff i b hb l, hstart]
      simp
    · -- two blocks do not start at one instruction
      have hstarts : c.start ≠ b.start := by
        intro heq
        refine hne ?_
        rw [← (h.isSet_start hc).2, ← (h.isSet_start hb).2, heq]
      rw [h.has_iff i c hc l]
      simp [hstarts]

/-- Merging into one successor records the facts of the state. -/
theorem propagate_meets_found {acc : List BasicBlock × Bool} (h : InPass insns flags T₀ T acc)
    {state : RegFile} {j q : ℕ} (hj : (positions flags)[j]? = some q) :
    Meets (propagate state acc j)
      (InPass insns flags T₀ fun v => T v ∨ v.1 = q ∧ FactAt state.inits v.2) F := by
  obtain ⟨bbs, changed⟩ := acc
  have hrec := h.records
  have hlt : j < bbs.length := by
    rw [hrec.length_eq]
    exact (List.getElem?_eq_some_iff.1 hj).1
  refine (meets_index hlt).bind fun b hb => ?_
  obtain rfl : b.start = q := by
    have := (hrec.isBlock j b hb).start_eq
    rw [hj] at this
    exact (Option.some.inj this).symm
  have hset := (hrec.isSet_start hb).1
  -- the flag is set iff a fact of the state is new to the block
  have hflag : ∀ {l}, FactAt state.inits l → ¬ b.Has l →
      ∃ v : ℕ × Option BpfReg, IsSet flags v.1 ∧ (v.1 = b.start ∧ FactAt state.inits v.2) ∧ ¬ T v :=
    fun {l} hl hno => ⟨(b.start, l), hset, ⟨rfl, hl⟩, fun hT => hno ((hrec.has_iff j b hb l).2 hT)⟩
  by_cases hr : b.reachable
  · rw [if_pos hr]
    by_cases hm : (b.regStateIn.merge state).equals b.regStateIn
    · rw [if_pos hm]
      have hsub := (RegFile.merge_equals_iff _ _).1 hm
      have hold : ∀ l, FactAt state.inits l → b.Has l := by
        intro l hl
        refine ⟨hr, ?_⟩
        cases l with
        | none => trivial
        | some r => exact fun hmem => hl (hsub hmem)
      have hself : bbs.set j b = bbs := by
        obtain ⟨hj', rfl⟩ := List.getElem?_eq_some_iff.1 hb
        exact List.set_getElem_self hj'
      refine Meets.ok (h.or (hself ▸ hrec.set hb rfl rfl rfl fun l => ?_) ?_)
      · exact ⟨Or.inl, fun hl => hl.elim id (hold l)⟩
      · refine ⟨Or.inl, fun hch => hch.resolve_right ?_⟩
        rintro ⟨⟨pc, l⟩, -, ⟨rfl, hl⟩, hno⟩
        exact hno ((hrec.has_iff j b hb l).1 (hold l hl))
    · rw [if_neg hm, setAt_of_lt hlt]
      refine Meets.ok (h.or (hrec.set hb rfl rfl rfl fun l => ?_) ?_)
      · cases l with
        | none => simp [BasicBlock.Has, FactAt, hr]
        | some r =>
          simp only [BasicBlock.Has, FactAt, hr, RegFile.inits_merge, Set.mem_inter_iff, true_and]
          tauto
      · have hsub : ¬ b.regStateIn.inits ⊆ state.inits :=
          fun hsub => hm ((RegFile.merge_equals_iff _ _).2 hsub)
        obtain ⟨r, hmem, hno⟩ := Set.not_subset.1 hsub
        have hnew : ¬ b.Has (some r) := fun hhas => hhas.2 hmem
        exact ⟨fun _ => Or.inr (hflag (l := some r) hno hnew), fun _ => rfl⟩
  · rw [if_neg hr, setAt_of_lt hlt]
    refine Meets.ok (h.or (hrec.set hb rfl rfl rfl fun l => ?_) ?_)
    · simp [BasicBlock.Has, hr]
    · have hnew : ¬ b.Has none := fun hhas => hr hhas.1
      exact ⟨fun _ => Or.inr (hflag (l := none) trivial hnew), fun _ => rfl⟩

/-- Merging into all successors of a block. -/
theorem propagateAll_meets_found {acc : List BasicBlock × Bool} (h : InPass insns flags T₀ T acc)
    {state : RegFile} {succs : List ℕ}
    (hsuccs : ∀ j ∈ succs, ∃ q, (positions flags)[j]? = some q) :
    Meets (succs.foldlM (propagate state) acc)
      (InPass insns flags T₀ fun v => T v ∨ rank flags v.1 ∈ succs ∧ FactAt state.inits v.2) F := by
  let I : ℕ → List BasicBlock × Bool → Prop := fun k acc =>
    InPass insns flags T₀ (fun v => T v ∨ rank flags v.1 ∈ succs.take k ∧ FactAt state.inits v.2)
      acc
  have hI0 : I 0 acc := h.congr fun v _ => by simp
  refine (Meets.foldlM I hI0 ?_).imp fun acc' hacc => ?_
  · intro k j acc' hj hin
    obtain ⟨q, hq⟩ := hsuccs j (List.mem_of_getElem? hj)
    refine (propagate_meets_found hin hq).imp fun acc'' hacc => hacc.congr fun v hv => ?_
    have hrank : rank flags v.1 = j ↔ v.1 = q := by
      constructor
      · rintro rfl
        exact Option.some.inj ((getElem?_positions_rank hv).symm.trans hq)
      · rintro rfl
        exact (getElem?_positions_iff.1 hq).2
    rw [List.take_add_one, hj, Option.toList_some, List.mem_append, List.mem_singleton, hrank]
    tauto
  · dsimp only [I] at hacc
    rwa [List.take_length] at hacc

/-- The successors of a block are the leaders its last instruction leads to. -/
theorem Cfg.rank_mem_successors_iff (hcfg : Cfg insns flags bbs)
    (hmarks : Marks Insn.endsBlock insns flags) {i : ℕ} {b : BasicBlock} (hb : bbs[i]? = some b)
    {q : ℕ} (hq : IsSet flags q) : rank flags q ∈ b.successors ↔ Edge insns (b.stop - 1) q := by
  obtain ⟨hstart, hstop, hsuccs⟩ := hcfg.isBlock i b hb
  rw [hsuccs]
  constructor
  · rintro ⟨p, he, hrank⟩
    have hp := getElem?_positions_rank
      (isSet_of_edge_last hmarks hstop (hstop ▸ start_lt_blockStop hstart) he)
    rw [← hrank, getElem?_positions_rank hq] at hp
    rwa [Option.some.inj hp]
  · exact fun he => ⟨q, he, rfl⟩

/-- **One block of pass `k`.** -/
theorem flowBlock_meets_found (hmarks : Marks Insn.endsBlock insns flags) {k i s : ℕ}
    {acc : List BasicBlock × Bool} (hs : (positions flags)[i]? = some s)
    (h : InPass insns flags T₀ (FoundAt insns k s) acc)
    (hfaulty : ∀ pc insn f, insns[pc]? = some insn → Known insns k (pc, none) →
      insn.Faulty pc (knownInits insns k pc) f → F f) :
    Meets (flowBlock insns acc i)
      (fun acc' => InPass insns flags T₀ (FoundAt insns k (blockStop flags i)) acc' ∧
        ∀ m, s + m < blockStop flags i → Known insns k (s + m, none) →
          CheckedAt insns (s + m) (knownInits insns k (s + m))) F := by
  have hrec := h.records
  have hi : i < acc.1.length := by
    rw [hrec.length_eq]
    exact (List.getElem?_eq_some_iff.1 hs).1
  refine (meets_index hi).bind fun b hb => ?_
  obtain ⟨hstart, hstop, hsuccs⟩ := hrec.isBlock i b hb
  obtain rfl : b.start = s := Option.some.inj (hstart.symm.trans hs)
  have hhas : ∀ l, b.Has l ↔ Known insns k (b.start, l) := fun l =>
    (hrec.has_iff i b hb l).trans found_pos
  by_cases hr : b.reachable
  · rw [if_pos hr]
    have hI : ∀ l, Known insns k (b.start, l) ↔ FactAt b.regStateIn.inits l := fun l =>
      (hhas l).symm.trans (and_iff_right hr)
    obtain ⟨-, hle⟩ := hrec.shape hmarks b (List.mem_of_getElem? hb)
    refine (simulate_eq_factsFrom hle fun m hm insn f hinsn hf => ?_).bind fun state hstate => ?_
    · have hm' : b.start + m < blockStop flags i := by omega
      rw [factsFrom_eq_knownInits hmarks hs hI hm'] at hf
      exact hfaulty _ insn f hinsn ((known_iff_factsFrom hmarks hs hI hm' none).2 trivial) hf
    · obtain ⟨hout, hchecked⟩ := hstate
      refine (propagateAll_meets_found h fun j hj => ?_).imp fun acc' hacc => ⟨?_, ?_⟩
      · obtain ⟨q, he, rfl⟩ := (hsuccs j).1 hj
        exact ⟨q, getElem?_positions_rank
          (isSet_of_edge_last hmarks hstop (hstop ▸ start_lt_blockStop hs) he)⟩
      · refine hacc.congr fun v hv => ?_
        rw [found_blockStop_of_reached hmarks hs hI hv, hrec.rank_mem_successors_iff hmarks hb hv,
          hout, hstop]
      · intro m hm _
        rw [← factsFrom_eq_knownInits hmarks hs hI hm]
        exact hchecked m (by omega)
  · rw [if_neg hr]
    have hno : ∀ l, ¬ Known insns k (b.start, l) := fun l hl => hr ((hhas l).2 hl).1
    refine Meets.ok ⟨h.congr fun v hv => (found_blockStop_of_not_reached hmarks hs hno hv).symm, ?_⟩
    exact fun m hm hknown => absurd hknown (not_known_of_start hmarks hs hno hm none)

/-- **Pass `k`** finds what round-robin iteration finds, and reports whether it is new. -/
theorem flowPass_meets_found (hmarks : Marks Insn.endsBlock insns flags) (hne : insns ≠ [])
    {k : ℕ} (h : Records insns flags (FoundAt insns k 0) bbs)
    (hfaulty : ∀ pc insn f, insns[pc]? = some insn → Known insns k (pc, none) →
      insn.Faulty pc (knownInits insns k pc) f → F f) :
    Meets (flowPass insns bbs)
      (fun acc => Records insns flags (FoundAt insns (k + 1) 0) acc.1 ∧
        (acc.2 = true ↔ PassChanges insns k) ∧ PassChecks insns k) F := by
  -- the first instruction of block `j`, or the end of the program
  let start : ℕ → ℕ := fun j => (positions flags)[j]?.getD flags.length
  let I : ℕ → List BasicBlock × Bool → Prop := fun j acc =>
    InPass insns flags (FoundAt insns k 0) (FoundAt insns k (start j)) acc ∧
      ∀ pc < start j, Known insns k (pc, none) → CheckedAt insns pc (knownInits insns k pc)
  have hstart0 : start 0 = 0 := by
    have hfirst := getElem?_positions_rank (hmarks.isSet_zero hne)
    rw [rank_zero] at hfirst
    simp [start, hfirst]
  have hI0 : I 0 (bbs, false) := by
    refine ⟨?_, fun pc hpc => by omega⟩
    rw [hstart0]
    refine ⟨h, fun _ _ hv => hv, ?_⟩
    simp
  refine (Meets.foldlM I hI0 ?_).imp fun acc hacc => ?_
  · rintro j j' acc hj ⟨hin, hchecked⟩
    have hlt : j < bbs.length := by simpa using (List.getElem?_eq_some_iff.1 hj).1
    rw [List.getElem?_range hlt] at hj
    cases hj
    rw [h.length_eq] at hlt
    have hs := List.getElem?_eq_getElem hlt
    have hstart : start j = (positions flags)[j] := by
      simp only [start]
      rw [hs, Option.getD_some]
    rw [hstart] at hin hchecked
    refine (flowBlock_meets_found hmarks hs hin hfaulty).imp fun acc' hacc => ?_
    refine ⟨hacc.1, fun pc hpc hknown => ?_⟩
    by_cases hold : pc < (positions flags)[j]
    · exact hchecked pc hold hknown
    · obtain ⟨m, rfl⟩ := Nat.exists_eq_add_of_le (Nat.le_of_not_lt hold)
      exact hacc.2 m hpc hknown
  · obtain ⟨hin, hchecked⟩ := hacc
    have hend : start (List.range bbs.length).length = insns.length := by
      rw [List.length_range, h.length_eq]
      simp only [start]
      rw [List.getElem?_eq_none le_rfl, Option.getD_none, hmarks.length_eq]
    rw [hend] at hin hchecked
    have hfoundEnd : ∀ v, FoundAt insns k insns.length v ↔ FoundAt insns (k + 1) 0 v :=
      fun v => found_end fun _ _ e => e.lt
    have hnext := hin.congr fun v _ => hfoundEnd v
    refine ⟨hnext.records, hnext.changed_iff.trans ?_, fun pc hknown => ?_⟩
    · -- what is found lies in the program
      refine exists_congr fun v => and_congr_left fun hv => ?_
      obtain ⟨hfound, hnew⟩ := hv
      refine hmarks.isSet_iff v.1 ?_
      rcases found_succ.1 hfound with hsrc | ⟨u, -, e⟩
      · exact absurd (Or.inl hsrc) hnew
      · exact e.1.1
    · intro insn hinsn
      exact hchecked pc (List.getElem?_eq_some_iff.1 hinsn).1 hknown insn hinsn

/-- **Why the loop stops** when `m` passes are left before pass `k`: some pass finds nothing new,
or an instruction fails its check in some pass, or all passes check and find something new. -/
theorem dataflowLoop_meets_found (hmarks : Marks Insn.endsBlock insns flags) (hne : insns ≠ [])
    {k m : ℕ} (h : Records insns flags (FoundAt insns k 0) bbs) :
    Meets (dataflowLoop insns m bbs)
      (fun bbs' => Cfg insns flags bbs' ∧ ∃ j < m, ¬ PassChanges insns (k + j))
      (fun f => (f = .err (.backEdgeBudgetExceeded 0) ∧
          ∀ j < m, PassChanges insns (k + j) ∧ PassChecks insns (k + j)) ∨
        ∃ j < m, ∃ pc insn, insns[pc]? = some insn ∧ Known insns (k + j) (pc, none) ∧
          insn.Faulty pc (knownInits insns (k + j) pc) f) := by
  induction m generalizing k bbs with
  | zero => exact Meets.fail (Or.inl ⟨rfl, fun j hj => by omega⟩)
  | succ m ih =>
    refine (flowPass_meets_found hmarks hne h fun pc insn f hinsn hknown hf => ?_).bind
      fun acc hacc => ?_
    · exact Or.inr ⟨0, by omega, pc, insn, hinsn, hknown, hf⟩
    obtain ⟨bbs', changed⟩ := acc
    obtain ⟨hrec, hchanged, hchecks⟩ := hacc
    cases changed with
    | false => exact Meets.ok ⟨hrec.toCfg, 0, by omega, fun hch => by cases hchanged.2 hch⟩
    | true =>
      have hfirst : PassChanges insns k ∧ PassChecks insns k := ⟨hchanged.1 rfl, hchecks⟩
      refine (ih hrec).mono ?_ ?_
      · rintro _ ⟨hcfg, j, hj, hno⟩
        exact ⟨hcfg, j + 1, by omega, by rwa [← add_assoc, add_right_comm]⟩
      · rintro f (⟨rfl, hall⟩ | ⟨j, hj, hfault⟩)
        · refine Or.inl ⟨rfl, fun j hj => ?_⟩
          cases j with
          | zero => exact hfirst
          | succ j =>
            rw [← add_assoc, add_right_comm]
            exact hall j (by omega)
        · exact Or.inr ⟨j + 1, by omega, by rwa [← add_assoc, add_right_comm]⟩

end Pass

end NVMirror
