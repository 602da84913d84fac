import Mathlib.Tactic

/-!
# Cutting a sequence at its leaders

A list of flags marks the positions at which a new block starts.  `positions flags` lists them,
`rank flags p` counts those before `p`.  The two are inverse to each other
(`getElem?_positions_iff`), which is all that is needed to locate the block of a position: the
block with index `i` starts at the leader of rank `i` and stops before the next one.
-/

namespace Leaders

variable {flags : List Bool} {i p q s : ℕ}

/-- Positions of the set flags, in increasing order. -/
def positions (flags : List Bool) : List ℕ :=
  flags.zipIdx.filterMap fun (s, i) => if s then some i else none

/-- Number of leaders before `p`. -/
def rank (flags : List Bool) (p : ℕ) : ℕ := (flags.take p).count true

/-- `p` is the position of a set flag. -/
def IsSet (flags : List Bool) (p : ℕ) : Prop := flags[p]? = some true

@[simp] theorem rank_zero : rank flags 0 = 0 := by simp [rank]

theorem IsSet.lt_length (h : IsSet flags p) : p < flags.length := by
  obtain ⟨hp, -⟩ := List.getElem?_eq_some_iff.1 h
  exact hp

theorem rank_succ_of_isSet (h : IsSet flags p) : rank flags (p + 1) = rank flags p + 1 := by
  obtain ⟨hp, hv⟩ := List.getElem?_eq_some_iff.1 h
  unfold rank
  rw [List.take_add_one, List.getElem?_eq_getElem hp, hv]
  simp

theorem rank_succ_of_not (h : ¬ IsSet flags p) : rank flags (p + 1) = rank flags p := by
  unfold rank
  rw [List.take_add_one]
  unfold IsSet at h
  cases hv : flags[p]? with
  | none => simp
  | some b =>
    cases b with
    | false => simp
    | true => exact absurd hv h

theorem rank_le_succ (flags : List Bool) (p : ℕ) : rank flags p ≤ rank flags (p + 1) := by
  by_cases h : IsSet flags p
  · rw [rank_succ_of_isSet h]; omega
  · rw [rank_succ_of_not h]

theorem rank_mono (flags : List Bool) (h : p ≤ q) : rank flags p ≤ rank flags q :=
  monotone_nat_of_le_succ (rank_le_succ flags) h

theorem rank_le (flags : List Bool) (p : ℕ) : rank flags p ≤ p :=
  List.count_le_length.trans (by simp)

theorem rank_length : rank flags flags.length = flags.count true := by
  simp [rank]

theorem positions_append_singleton (flags : List Bool) (b : Bool) :
    positions (flags ++ [b]) = positions flags ++ if b then [flags.length] else [] := by
  unfold positions
  rw [List.zipIdx_append, List.filterMap_append]
  cases b <;> simp

theorem length_positions (flags : List Bool) : (positions flags).length = flags.count true := by
  induction flags using List.reverseRecOn with
  | nil => rfl
  | append_singleton flags b ih =>
    rw [positions_append_singleton, List.length_append, ih]
    cases b <;> simp

theorem length_positions_le (flags : List Bool) : (positions flags).length ≤ flags.length := by
  rw [length_positions]
  exact List.count_le_length

theorem isSet_set (h : i < flags.length) : IsSet (flags.set i true) p ↔ IsSet flags p ∨ p = i := by
  unfold IsSet
  rw [List.getElem?_set]
  split_ifs with hi
  · simp [hi]
  · exact ⟨fun h => Or.inl h, fun h => h.resolve_right (Ne.symm hi)⟩

/-- **The leader of rank `i`** is the `i`-th position. -/
theorem getElem?_positions_iff :
    (positions flags)[i]? = some s ↔ IsSet flags s ∧ rank flags s = i := by
  unfold IsSet rank
  induction flags using List.reverseRecOn generalizing i s with
  | nil => simp [positions]
  | append_singleton flags b ih =>
    rw [positions_append_singleton]
    rcases Nat.lt_trichotomy s flags.length with hs | rfl | hs
    · -- an old position: nothing before it has changed
      rw [List.getElem?_append_left hs, List.take_append_of_le_length hs.le, ← ih,
        List.getElem?_append]
      split
      · rfl
      · rename_i hi
        have hnone : (positions flags)[i]? = none := List.getElem?_eq_none (by omega)
        rw [hnone]
        cases b with
        | false => simp
        | true =>
          simp only [if_true, List.getElem?_singleton]
          constructor
          · intro h
            split at h
            · cases h; omega
            · cases h
          · intro h; cases h
    · -- the new position
      rw [List.getElem?_append_right le_rfl, List.take_left, ← length_positions,
        List.getElem?_append]
      have hlt : ∀ j, (positions flags)[j]? ≠ some flags.length := fun j hj => by
        have h := (ih.1 hj).1
        rw [List.getElem?_eq_none le_rfl] at h
        cases h
      split
      · rename_i hi
        refine ⟨fun h => absurd h (hlt i), fun h => ?_⟩
        omega
      · cases b with
        | false => simp
        | true =>
          simp only [if_true, List.getElem?_singleton, Nat.sub_self]
          constructor
          · intro h
            split at h
            · exact ⟨trivial, by omega⟩
            · cases h
          · rintro ⟨-, rfl⟩
            simp
    · rw [List.getElem?_eq_none (l := flags ++ [b]) (by simp; omega)]
      refine ⟨fun h => ?_, fun h => by cases h.1⟩
      rw [List.getElem?_append] at h
      split at h
      · have h' := (ih.1 h).1
        rw [List.getElem?_eq_none hs.le] at h'
        cases h'
      · cases b with
        | false => simp at h
        | true =>
          simp only [if_true, List.getElem?_singleton] at h
          split at h
          · cases h; omega
          · cases h

theorem getElem?_positions_rank (h : IsSet flags p) :
    (positions flags)[rank flags p]? = some p :=
  getElem?_positions_iff.2 ⟨h, rfl⟩

theorem nodup_positions (flags : List Bool) : (positions flags).Nodup := by
  rw [List.nodup_iff_getElem?_ne_getElem?]
  intro i j hij hj heq
  have hs := List.getElem?_eq_getElem hj
  have hi := (getElem?_positions_iff.1 (heq.trans hs)).2
  have hj := (getElem?_positions_iff.1 hs).2
  omega

/-- There are as many positions as set flags. -/
theorem length_positions_eq_ncard (flags : List Bool) :
    (positions flags).length = {p | IsSet flags p}.ncard := by
  have hset : {p | IsSet flags p} = ((positions flags).toFinset : Set ℕ) := by
    ext p
    rw [Finset.mem_coe, List.mem_toFinset, List.mem_iff_getElem?]
    constructor
    · exact fun h => ⟨_, getElem?_positions_rank h⟩
    · rintro ⟨i, hi⟩
      exact (getElem?_positions_iff.1 hi).1
  rw [hset, Set.ncard_coe_finset, List.toFinset_card_of_nodup (nodup_positions flags)]

/-- A leader of rank `i` lies before `q` iff `i` is below the rank of `q`. -/
theorem lt_rank_iff (h : (positions flags)[i]? = some s) : i < rank flags q ↔ s < q := by
  obtain ⟨hs, rfl⟩ := getElem?_positions_iff.1 h
  constructor
  · intro hlt
    by_contra hle
    exact absurd (rank_mono flags (Nat.le_of_not_lt hle)) (by omega)
  · intro hlt
    have h1 := rank_succ_of_isSet hs
    have h2 := rank_mono flags (show s + 1 ≤ q from hlt)
    omega

/-- End of the block with index `i`: the next leader, or the end of the list. -/
def blockStop (flags : List Bool) (i : ℕ) : ℕ := (positions flags)[i + 1]?.getD flags.length

/-- `p` lies in the block with index `i`. -/
theorem lt_blockStop_iff (hi : i < (positions flags).length) :
    p < blockStop flags i ↔ p < flags.length ∧ rank flags (p + 1) ≤ i + 1 := by
  unfold blockStop
  cases h : (positions flags)[i + 1]? with
  | some t =>
    have ht := (getElem?_positions_iff.1 h).1.lt_length
    have := lt_rank_iff (q := p + 1) h
    simp only [Option.getD_some]
    omega
  | none =>
    have hlen : (positions flags).length ≤ i + 1 := List.getElem?_eq_none_iff.1 h
    simp only [Option.getD_none]
    refine ⟨fun hp => ⟨hp, ?_⟩, fun hp => hp.1⟩
    have h1 : rank flags (p + 1) ≤ rank flags flags.length := rank_mono flags hp
    rw [rank_length, ← length_positions] at h1
    omega

theorem blockStop_le (flags : List Bool) (i : ℕ) : blockStop flags i ≤ flags.length := by
  unfold blockStop
  cases h : (positions flags)[i + 1]? with
  | some t => exact ((getElem?_positions_iff.1 h).1.lt_length).le
  | none => exact le_rfl

theorem start_lt_blockStop (h : (positions flags)[i]? = some s) : s < blockStop flags i := by
  obtain ⟨hs, rfl⟩ := getElem?_positions_iff.1 h
  rw [lt_blockStop_iff (List.getElem?_eq_some_iff.1 h).1, rank_succ_of_isSet hs]
  exact ⟨hs.lt_length, le_rfl⟩

/-- The rank after a position of block `i` is `i + 1`. -/
theorem rank_of_mem_block (h : (positions flags)[i]? = some s) (hp : s ≤ p)
    (hlt : p < blockStop flags i) : rank flags (p + 1) = i + 1 := by
  have h1 := (lt_rank_iff (q := p + 1) h).2 (by omega)
  have h2 := (lt_blockStop_iff (List.getElem?_eq_some_iff.1 h).1).1 hlt
  omega

/-- Inside a block there is no further leader. -/
theorem not_isSet_of_mem_block (h : (positions flags)[i]? = some s) (hp : s < p)
    (hlt : p < blockStop flags i) : ¬ IsSet flags p := by
  intro hset
  have h1 := rank_of_mem_block h hp.le hlt
  have h2 := rank_succ_of_isSet hset
  have h3 := (lt_rank_iff (q := p) h).2 hp
  omega

/-- A block that stops before the end stops at a leader. -/
theorem isSet_blockStop (h : blockStop flags i < flags.length) :
    IsSet flags (blockStop flags i) ∧ rank flags (blockStop flags i) = i + 1 := by
  unfold blockStop at *
  cases ht : (positions flags)[i + 1]? with
  | some t => exact getElem?_positions_iff.1 ht
  | none => simp [ht] at h

/-- Every position lies in the block whose index is its rank. -/
theorem exists_block (h0 : IsSet flags 0) (hp : p < flags.length) :
    ∃ i s, rank flags (p + 1) = i + 1 ∧ (positions flags)[i]? = some s ∧ s ≤ p ∧
      p < blockStop flags i := by
  have hpos : 1 ≤ rank flags (p + 1) := by
    have h1 := rank_succ_of_isSet h0
    have h2 := rank_mono flags (show 0 + 1 ≤ p + 1 by omega)
    omega
  obtain ⟨i, hi⟩ : ∃ i, rank flags (p + 1) = i + 1 := ⟨rank flags (p + 1) - 1, by omega⟩
  have hle : rank flags (p + 1) ≤ (positions flags).length := by
    rw [length_positions, ← rank_length]
    exact rank_mono flags hp
  have hlt : i < (positions flags).length := by omega
  have hs := List.getElem?_eq_getElem hlt
  refine ⟨i, _, hi, hs, ?_, ?_⟩
  · have := (lt_rank_iff (q := p + 1) hs).1 (by omega)
    omega
  · exact (lt_blockStop_iff hlt).2 ⟨hp, by omega⟩

end Leaders
