import Mathlib.Tactic

/-!
# Round-robin iteration

Facts are propagated along the edges of a graph in passes; each pass visits the positions in
increasing order, and a fact found at a later position is used in the same pass.

* `Within k v`: some path from a source to `v` has at most `k` backward edges.  This says that `v`
  is known when pass `k` visits its position.
* `Found k p v`: `v` is known in pass `k` before position `p` is visited (`found_pos`); after the
  last position the next pass begins (`found_end`).
* `within_of_not_changes`: a pass that finds nothing new is the last one.
* `exists_backSources`: a fact that needs `m` backward edges has `m` sources of backward edges that
  lead to it.
-/

namespace RoundRobin

variable {ν : Type} (source : ν → Prop) (edge : ν → ν → Prop) (pos : ν → ℕ)

/-- Some path from a source has at most `k` backward edges. -/
inductive Within : ℕ → ν → Prop
  | source {k : ℕ} {v : ν} (h : source v) : Within k v
  | forward {k : ℕ} {u v : ν} (h : Within k u) (e : edge u v) (hlt : pos u < pos v) : Within k v
  | any {k : ℕ} {u v : ν} (h : Within k u) (e : edge u v) : Within (k + 1) v

/-- What is known in pass `k` before position `p` is visited. -/
def Found (k p : ℕ) (v : ν) : Prop :=
  source v ∨ (∃ j < k, ∃ u, Within source edge pos j u ∧ edge u v) ∨
    ∃ u, Within source edge pos k u ∧ pos u < p ∧ edge u v

variable {source edge pos}

theorem Within.succ {k : ℕ} {v : ν} (h : Within source edge pos k v) :
    Within source edge pos (k + 1) v := by
  induction h with
  | source h => exact .source h
  | forward _ e hlt ih => exact ih.forward e hlt
  | any _ e ih => exact ih.any e

theorem Within.mono {j k : ℕ} {v : ν} (h : Within source edge pos j v) (hjk : j ≤ k) :
    Within source edge pos k v := by
  induction hjk with
  | refl => exact h
  | step _ ih => exact ih.succ

/-! ### Passes -/

/-- The facts at a position are used when it is visited. -/
theorem found_pos {k : ℕ} {v : ν} :
    Found source edge pos k (pos v) v ↔ Within source edge pos k v := by
  constructor
  · rintro (h | ⟨j, hj, u, hu, e⟩ | ⟨u, hu, hlt, e⟩)
    · exact .source h
    · exact (hu.any e).mono hj
    · exact hu.forward e hlt
  · intro h
    cases h with
    | source h => exact Or.inl h
    | forward h e hlt => exact Or.inr (Or.inr ⟨_, h, hlt, e⟩)
    | any h e => exact Or.inr (Or.inl ⟨_, Nat.lt_succ_self _, _, h, e⟩)

theorem found_zero {v : ν} : Found source edge pos 0 0 v ↔ source v := by
  constructor
  · rintro (h | ⟨j, hj, -⟩ | ⟨u, -, hlt, -⟩)
    · exact h
    · exact absurd hj (Nat.not_lt_zero j)
    · exact absurd hlt (Nat.not_lt_zero _)
  · exact Or.inl

/-- What the passes before pass `k + 1` find. -/
theorem found_succ {k : ℕ} {v : ν} : Found source edge pos (k + 1) 0 v ↔
    source v ∨ ∃ u, Within source edge pos k u ∧ edge u v := by
  constructor
  · rintro (h | ⟨j, hj, u, hu, e⟩ | ⟨u, -, hlt, -⟩)
    · exact Or.inl h
    · exact Or.inr ⟨u, hu.mono (Nat.le_of_lt_succ hj), e⟩
    · exact absurd hlt (Nat.not_lt_zero _)
  · rintro (h | ⟨u, hu, e⟩)
    · exact Or.inl h
    · exact Or.inr (Or.inl ⟨k, Nat.lt_succ_self k, u, hu, e⟩)

/-- After the last position the next pass begins. -/
theorem found_end {k n : ℕ} (hn : ∀ u v, edge u v → pos u < n) {v : ν} :
    Found source edge pos k n v ↔ Found source edge pos (k + 1) 0 v := by
  rw [found_succ]
  constructor
  · rintro (h | ⟨j, hj, u, hu, e⟩ | ⟨u, hu, -, e⟩)
    · exact Or.inl h
    · exact Or.inr ⟨u, hu.mono hj.le, e⟩
    · exact Or.inr ⟨u, hu, e⟩
  · rintro (h | ⟨u, hu, e⟩)
    · exact Or.inl h
    · exact Or.inr (Or.inr ⟨u, hu, hn u v e, e⟩)

theorem Found.mono {k p p' : ℕ} {v : ν} (h : Found source edge pos k p v) (hp : p ≤ p') :
    Found source edge pos k p' v := by
  rcases h with h | h | ⟨u, hu, hlt, e⟩
  · exact Or.inl h
  · exact Or.inr (Or.inl h)
  · exact Or.inr (Or.inr ⟨u, hu, hlt.trans_le hp, e⟩)

/-! ### The last pass -/

variable (source edge pos) in
/-- Pass `k` finds a fact among those that are kept from pass to pass. -/
def Changes (kept : ν → Prop) (k : ℕ) : Prop :=
  ∃ v, kept v ∧ Found source edge pos (k + 1) 0 v ∧ ¬ Found source edge pos k 0 v

variable {kept : ν → Prop}

/-- After a pass without a change nothing is found any more; facts that are not kept are found from
the position before. -/
theorem within_of_not_changes (hkept : ∀ u v, edge u v → kept v ∨ pos u < pos v) {k : ℕ}
    (h : ¬ Changes source edge pos kept k) {v : ν} (hv : Within source edge pos (k + 1) v) :
    Within source edge pos k v := by
  generalize hk : k + 1 = k' at hv
  induction hv with
  | source h => exact .source h
  | forward _ e hlt ih => exact (ih hk).forward e hlt
  | @any j u v hu e ih =>
    obtain rfl : k = j := Nat.succ.inj hk
    rcases hkept u v e with hv | hlt
    · have hfound : Found source edge pos k 0 v := by
        by_contra hno
        exact h ⟨v, hv, found_succ.2 (Or.inr ⟨u, hu, e⟩), hno⟩
      exact found_pos.1 (hfound.mono (Nat.zero_le _))
    · exact hu.forward e hlt

/-- Passes change something up to the last one. -/
theorem Changes.of_succ (hkept : ∀ u v, edge u v → kept v ∨ pos u < pos v) {k : ℕ}
    (h : Changes source edge pos kept (k + 1)) : Changes source edge pos kept k := by
  by_contra hno
  obtain ⟨v, -, hfound, hnew⟩ := h
  rcases found_succ.1 hfound with hsrc | ⟨u, hu, e⟩
  · exact hnew (Or.inl hsrc)
  · exact hnew (found_succ.2 (Or.inr ⟨u, within_of_not_changes hkept hno hu, e⟩))

theorem Changes.of_le (hkept : ∀ u v, edge u v → kept v ∨ pos u < pos v) {j k : ℕ} (hjk : j ≤ k)
    (h : Changes source edge pos kept k) : Changes source edge pos kept j := by
  induction hjk with
  | refl => exact h
  | step _ ih => exact ih (h.of_succ hkept)

/-! ### Counting backward edges -/

variable (source edge pos) in
/-- A path to `v` needs `m` backward edges. -/
def Needs (m : ℕ) (v : ν) : Prop :=
  Within source edge pos m v ∧ ∀ j < m, ¬ Within source edge pos j v

variable (edge pos) in
/-- A backward edge starts at `u`, on a path to `v`. -/
def BackSource (u v : ν) : Prop :=
  ∃ w, edge u w ∧ pos w ≤ pos u ∧ Relation.ReflTransGen edge w v

/-- The last backward edge of a path. -/
theorem Needs.exists_backSource {m : ℕ} {v : ν} (h : Needs source edge pos (m + 1) v) :
    ∃ u, Needs source edge pos m u ∧ BackSource edge pos u v := by
  obtain ⟨hv, hno⟩ := h
  generalize hm : m + 1 = m' at hv
  induction hv with
  | source h => exact absurd (.source h) (hno m (Nat.lt_succ_self m))
  | @forward k u v hu e hlt ih =>
    have hnou : ∀ j < m + 1, ¬ Within source edge pos j u := fun j hj huj =>
      hno j hj (huj.forward e hlt)
    obtain ⟨u', hu', w, hw, hback, hpath⟩ := ih hnou hm
    exact ⟨u', hu', w, hw, hback, hpath.tail e⟩
  | @any k u v hu e ih =>
    obtain rfl : m = k := Nat.succ.inj hm
    refine ⟨u, ⟨hu, fun j hj huj => hno (j + 1) (by omega) (huj.any e)⟩, v, e, ?_, .refl⟩
    by_contra hlt
    exact hno m (Nat.lt_succ_self m) (hu.forward e (not_le.1 hlt))

/-- **A fact that needs `m` backward edges** has `m` sources of backward edges on its paths. -/
theorem Needs.exists_backSources [DecidableEq ν] {m : ℕ} {v : ν}
    (h : Needs source edge pos m v) :
    ∃ S : Finset ν, S.card = m ∧ ∀ u ∈ S, BackSource edge pos u v := by
  -- the sources differ in the number of backward edges they need
  suffices hS : ∃ S : Finset ν, S.card = m ∧ ∀ u ∈ S, BackSource edge pos u v ∧
      ∃ j < m, Needs source edge pos j u by
    obtain ⟨S, hcard, hS⟩ := hS
    exact ⟨S, hcard, fun u hu => (hS u hu).1⟩
  induction m generalizing v with
  | zero => exact ⟨∅, rfl, by simp⟩
  | succ m ih =>
    obtain ⟨u, hu, hback⟩ := h.exists_backSource
    obtain ⟨S, hcard, hS⟩ := ih hu
    have hnot : u ∉ S := by
      intro hmem
      obtain ⟨-, j, hj, hneeds⟩ := hS u hmem
      exact hu.2 j hj hneeds.1
    refine ⟨insert u S, by rw [Finset.card_insert_of_notMem hnot, hcard], fun x hx => ?_⟩
    rcases Finset.mem_insert.1 hx with rfl | hx
    · exact ⟨hback, m, Nat.lt_succ_self m, hu⟩
    · obtain ⟨⟨w, hw, hle, hpath⟩, j, hj, hneeds⟩ := hS x hx
      obtain ⟨w', hw', -, hpath'⟩ := hback
      exact ⟨⟨w, hw, hle, (hpath.tail hw').trans hpath'⟩, j, by omega, hneeds⟩

/-- A change in pass `k` needs `k` backward edges. -/
theorem Changes.exists_needs {k : ℕ} (h : Changes source edge pos kept k) :
    ∃ u v, edge u v ∧ Needs source edge pos k u := by
  obtain ⟨v, -, hfound, hnew⟩ := h
  rcases found_succ.1 hfound with hsrc | ⟨u, hu, e⟩
  · exact absurd (Or.inl hsrc) hnew
  · exact ⟨u, v, e, hu, fun j hj huj => hnew (Or.inr (Or.inl ⟨j, hj, u, huj, e⟩))⟩

end RoundRobin
