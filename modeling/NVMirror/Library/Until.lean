import Mathlib.Tactic

/-!
# Until

For a system that makes one step after the other, with any choice at each step:

* `Until R Q P s`: on every run from `s`, `Q` holds until `P` does; `P` need not ever hold.
  `Leaves R Q P s` says the same of the states after `s`, and `Q` of `s`.
* `Until.of_closed`: it is enough to find a set of states that the steps leave through `P` only.
* `Until.trans`, `Until.leaves`: two stretches of a run, one after the other.
* `exists_stretch`: a run that goes from one stretch to the next is always in one of them.
* `Counted`: runs on which some of the steps are counted.
-/

namespace Temporal

variable {σ : Type*}

/-- On every run from `s`, `Q` holds until `P` does. -/
def Until (R : σ → σ → Prop) (Q P : σ → Prop) (s : σ) : Prop :=
  P s ∨ ∃ I : σ → Prop, I s ∧ ∀ t, I t → Q t ∧ ∀ u, R t u → P u ∨ I u

/-- `Q` holds at first and, from the first step on, until `P` does. -/
def Leaves (R : σ → σ → Prop) (Q P : σ → Prop) (s : σ) : Prop := Q s ∧ ∀ u, R s u → Until R Q P u

variable {R : σ → σ → Prop} {Q Q' P P' : σ → Prop} {s : σ}

namespace Until

theorem now (h : P s) : Until R Q P s := Or.inl h

/-- A set of states that the steps leave through `P` only. -/
theorem of_closed (X : σ → Prop) (hX : ∀ t, X t → P t ∨ Q t ∧ ∀ u, R t u → X u) (h : X s) :
    Until R Q P s := by
  by_cases hP : P s
  · exact Or.inl hP
  refine Or.inr ⟨fun t => X t ∧ ¬ P t, ⟨h, hP⟩, fun t ht => ?_⟩
  obtain ⟨hQ, hnext⟩ := (hX t ht.1).resolve_left ht.2
  refine ⟨hQ, fun u hu => ?_⟩
  by_cases hPu : P u
  · exact Or.inl hPu
  · exact Or.inr ⟨hnext u hu, hPu⟩

/-- The first step. -/
theorem cases (h : Until R Q P s) : P s ∨ Leaves R Q P s := by
  rcases h with h | ⟨I, hI, hclosed⟩
  · exact Or.inl h
  · obtain ⟨hQ, hnext⟩ := hclosed s hI
    exact Or.inr ⟨hQ, fun u hu => (hnext u hu).imp_right fun hIu => ⟨I, hIu, hclosed⟩⟩

end Until

/-- One step more. -/
theorem Leaves.until (h : Leaves R Q P s) : Until R Q P s := by
  refine Until.of_closed (fun t => t = s ∨ Until R Q P t) (fun t ht => ?_) (Or.inl rfl)
  rcases ht with rfl | ht
  · exact Or.inr ⟨h.1, fun u hu => Or.inr (h.2 u hu)⟩
  · exact ht.cases.imp_right fun ⟨hQt, hnext⟩ => ⟨hQt, fun u hu => Or.inr (hnext u hu)⟩

/-- A state that the steps do not leave. -/
theorem Leaves.of_stays (hQ : Q s) (h : ∀ u, R s u → u = s) : Leaves R Q P s := by
  have huntil : Until R Q P s := by
    refine Until.of_closed (fun t => t = s) ?_ rfl
    rintro t rfl
    exact Or.inr ⟨hQ, h⟩
  refine ⟨hQ, fun u hu => ?_⟩
  rw [h u hu]
  exact huntil

namespace Until

/-- Two stretches, one after the other. -/
theorem trans (h : Until R Q P s) (h' : ∀ t, P t → Until R Q P' t) : Until R Q P' s := by
  refine of_closed (fun t => Until R Q P t ∨ Until R Q P' t) (fun t ht => ?_) (Or.inl h)
  have hright : Until R Q P' t → P' t ∨ Q t ∧ ∀ u, R t u → Until R Q P u ∨ Until R Q P' u :=
    fun ht' => ht'.cases.imp_right fun ⟨hQt, hnext⟩ => ⟨hQt, fun u hu => Or.inr (hnext u hu)⟩
  rcases ht with ht | ht
  · rcases ht.cases with hP | ⟨hQt, hnext⟩
    · exact hright (h' t hP)
    · exact Or.inr ⟨hQt, fun u hu => Or.inl (hnext u hu)⟩
  · exact hright ht

/-- The second stretch is not empty. -/
theorem leaves (h : Until R Q P s) (h' : ∀ t, P t → Leaves R Q P' t) : Leaves R Q P' s := by
  rcases h.cases with hP | ⟨hQ, hnext⟩
  · exact h' s hP
  · exact ⟨hQ, fun u hu => (hnext u hu).trans fun t ht => (h' t ht).until⟩

theorem mono (h : Until R Q P s) (hQ : ∀ t, Q t → Q' t) (hP : ∀ t, P t → P' t) :
    Until R Q' P' s := by
  refine of_closed (fun t => Until R Q P t) (fun t ht => ?_) h
  exact ht.cases.imp (hP t) fun ⟨hQt, hnext⟩ => ⟨hQ t hQt, hnext⟩

/-- A stretch that does not end where it begins. -/
theorem leaves_of_not (h : Until R Q P s) (hs : ¬ P s) (hP : ∀ t, P t → P' t) :
    Leaves R Q P' s := by
  obtain ⟨hQ, hnext⟩ := h.cases.resolve_left hs
  exact ⟨hQ, fun u hu => (hnext u hu).mono (fun _ hq => hq) hP⟩

end Until

/-- What holds after every step holds where a stretch ends. -/
theorem Leaves.after {G : σ → Prop} (hG : ∀ t u, R t u → G u) (h : Leaves R Q P s) :
    Leaves R Q (fun u => P u ∧ G u) s := by
  refine ⟨h.1, fun u hu => ?_⟩
  refine Until.of_closed (fun t => G t ∧ Until R Q P t) (fun t ht => ?_) ⟨hG s u hu, h.2 u hu⟩
  obtain ⟨hGt, huntil⟩ := ht
  rcases huntil.cases with hP | ⟨hQ, hnext⟩
  · exact Or.inl ⟨hP, hGt⟩
  · exact Or.inr ⟨hQ, fun v hv => ⟨hG t v hv, hnext v hv⟩⟩

theorem Leaves.mono (h : Leaves R Q P s) (hQ : ∀ t, Q t → Q' t) (hP : ∀ t, P t → P' t) :
    Leaves R Q' P' s :=
  ⟨hQ s h.1, fun u hu => (h.2 u hu).mono hQ hP⟩

/-! ### Runs -/

/-- **Where a run is.**  `Arr x s` says that a stretch `x` begins in `s`, `Q x t` that `t` is one of
its states.  A stretch may be empty if one of lower rank begins in the same state; every other one
ends, if at all, where the next one begins. -/
theorem exists_stretch {ι : Type*} (rank : ι → ℕ) {Arr Q : ι → σ → Prop}
    (hnext : ∀ x s, Arr x s → (∃ y, Arr y s ∧ rank y < rank x) ∨
      Leaves R (Q x) (fun t => ∃ y, Arr y t) s)
    {x : ι} {t : σ} (hs : Arr x s) (hrun : Relation.ReflTransGen R s t) : ∃ y, Q y t := by
  have hbegin : ∀ t, (∃ y, Arr y t) → ∃ y, Leaves R (Q y) (fun t => ∃ y, Arr y t) t := by
    rintro t ⟨y, hy⟩
    induction hr : rank y using Nat.strong_induction_on generalizing y with
    | _ r ih =>
      rcases hnext y t hy with ⟨z, hz, hlt⟩ | hleaves
      · exact ih (rank z) (hr ▸ hlt) z hz rfl
      · exact ⟨y, hleaves⟩
  have hinv : ∃ y, Leaves R (Q y) (fun t => ∃ y, Arr y t) t := by
    induction hrun with
    | refl => exact hbegin s ⟨x, hs⟩
    | tail _ hstep ih =>
      obtain ⟨y, -, hafter⟩ := ih
      rcases (hafter _ hstep).cases with hP | hleaves
      · exact hbegin _ hP
      · exact ⟨y, hleaves⟩
  obtain ⟨y, hQ, -⟩ := hinv
  exact ⟨y, hQ⟩

/-! ### Counting -/

/-- A step of `R`, counted if it starts in `hit`. -/
def Counted (R : σ → σ → Prop) (hit : σ → Prop) [DecidablePred hit] (a b : σ × ℕ) : Prop :=
  R a.1 b.1 ∧ b.2 = a.2 + if hit a.1 then 1 else 0

section

variable {hit : σ → Prop} [DecidablePred hit]

/-- A run on which only the first step is counted. -/
theorem Counted.run_first {t u : σ} (hs : hit s) (h : R s t)
    (hrun : Relation.ReflTransGen (fun a b => R a b ∧ ¬ hit a) t u) (n : ℕ) :
    Relation.ReflTransGen (Counted R hit) (s, n) (u, n + 1) := by
  have hstep : Counted R hit (s, n) (t, n + 1) := ⟨h, by rw [if_pos hs]⟩
  refine Relation.ReflTransGen.head hstep ?_
  induction hrun with
  | refl => exact .refl
  | tail _ hlast ih => exact ih.tail ⟨hlast.1, by rw [if_neg hlast.2]⟩

/-- Where nothing is counted. -/
theorem Until.counted (h : Until R Q P s) (hQ : ∀ t, Q t → ¬ hit t) (n : ℕ) :
    Until (Counted R hit) (fun a => Q a.1 ∧ a.2 = n) (fun a => P a.1 ∧ a.2 = n) (s, n) := by
  refine Until.of_closed (fun a => Until R Q P a.1 ∧ a.2 = n) ?_ ⟨h, rfl⟩
  rintro ⟨t, k⟩ ⟨ht, rfl⟩
  rcases ht.cases with hP | ⟨hQt, hnext⟩
  · exact Or.inl ⟨hP, rfl⟩
  · refine Or.inr ⟨⟨hQt, rfl⟩, fun u hu => ⟨hnext _ hu.1, ?_⟩⟩
    rw [hu.2, if_neg (hQ t hQt), add_zero]

theorem Leaves.counted (h : Leaves R Q P s) (hQ : ∀ t, Q t → ¬ hit t) (n : ℕ) :
    Leaves (Counted R hit) (fun a => Q a.1 ∧ a.2 = n) (fun a => P a.1 ∧ a.2 = n) (s, n) := by
  refine ⟨⟨h.1, rfl⟩, fun ⟨u, k⟩ hu => ?_⟩
  have hk : k = n + if hit s then 1 else 0 := hu.2
  rw [if_neg (hQ s h.1), add_zero] at hk
  rw [hk]
  exact (h.2 u hu.1).counted hQ n

/-- Only the first step is counted. -/
theorem Leaves.counted_first (hs : hit s) (h : ∀ u, R s u → Until R Q P u)
    (hQ : ∀ t, Q t → ¬ hit t) {Q' : σ × ℕ → Prop} (n : ℕ) (hfirst : Q' (s, n))
    (hQ' : ∀ t, Q t → Q' (t, n + 1)) :
    Leaves (Counted R hit) Q' (fun a => P a.1 ∧ a.2 = n + 1) (s, n) := by
  refine ⟨hfirst, fun ⟨u, k⟩ hu => ?_⟩
  have hk : k = n + if hit s then 1 else 0 := hu.2
  rw [if_pos hs] at hk
  rw [hk]
  refine ((h u hu.1).counted hQ (n + 1)).mono ?_ fun _ hP => hP
  rintro ⟨t, k⟩ ⟨hQt, rfl⟩
  exact hQ' t hQt

end

end Temporal
