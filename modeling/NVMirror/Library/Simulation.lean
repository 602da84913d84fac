import NVMirror.Library.Checked

/-!
# Runs and simulations

A machine is a step function `f : σ → Rust ε σ`; a machine that has stopped steps to the state it
is in.

* `steps f s k`: the state after `k` steps.
* `Reaches f l n s t`: at least `l` and at most `n` steps lead from `s` to `t`.
* `steps_induction`: what every step keeps holds throughout a run.
* `eq_of_stopped`: a run stops in one state.  `steps_ne_of_error`: a run with a fault does not stop.
* `steps_map`: state added to a machine for the sake of a proof does not change its runs.
* `Simulates R f g`: one step of `f` is matched by one or more steps of `g`, with the same fault.
* `Simulates.run` carries this to runs.  Since `g` never makes fewer steps than `f`, a run of `g`
  that has stopped, or has a fault, tells what `f` did: `Simulates.of_stopped`,
  `Simulates.of_error`.
-/

namespace Rust

variable {ε σ τ : Type}

/-- The state after `k` steps. -/
def steps (f : σ → Rust ε σ) (s : σ) : ℕ → Rust ε σ
  | 0 => pure s
  | k + 1 => steps f s k >>= f

variable {f : σ → Rust ε σ} {g : τ → Rust ε τ} {s t : σ}

theorem steps_succ (f : σ → Rust ε σ) (s : σ) (k : ℕ) : steps f s (k + 1) = steps f s k >>= f :=
  rfl

theorem steps_one (f : σ → Rust ε σ) (s : σ) : steps f s 1 = f s := rfl

theorem steps_add (f : σ → Rust ε σ) (s : σ) (j k : ℕ) :
    steps f s (j + k) = steps f s j >>= fun t => steps f t k := by
  induction k with
  | zero => cases steps f s j <;> rfl
  | succ k ih => rw [← Nat.add_assoc, steps_succ, ih, bind_assoc]; rfl

theorem steps_succ_eq_ok {k : ℕ} :
    steps f s (k + 1) = .ok t ↔ ∃ u, steps f s k = .ok u ∧ f u = .ok t :=
  bind_eq_ok

/-- Continue a run. -/
theorem steps_trans {u : σ} {j k : ℕ} (h1 : steps f s j = .ok t) (h2 : steps f t k = .ok u) :
    steps f s (j + k) = .ok u := by
  rw [steps_add, h1, ok_bind, h2]

/-- At least `l` and at most `n` steps lead from one state to the other. -/
def Reaches (f : σ → Rust ε σ) (l n : ℕ) (s t : σ) : Prop :=
  ∃ k, l ≤ k ∧ k ≤ n ∧ steps f s k = .ok t

namespace Reaches

variable {l l' m n : ℕ}

theorem refl (n : ℕ) (s : σ) : Reaches f 0 n s s := ⟨0, le_rfl, Nat.zero_le n, rfl⟩

theorem of_steps {k : ℕ} (hl : l ≤ k) (hn : k ≤ n) (h : steps f s k = .ok t) : Reaches f l n s t :=
  ⟨k, hl, hn, h⟩

theorem mono (h : Reaches f l' m s t) (hl : l ≤ l') (hmn : m ≤ n) : Reaches f l n s t := by
  obtain ⟨k, hl', hm, hsteps⟩ := h
  exact ⟨k, hl.trans hl', hm.trans hmn, hsteps⟩

theorem trans {u : σ} (h : Reaches f l m s t) (h' : Reaches f l' n t u) :
    Reaches f (l + l') (m + n) s u := by
  obtain ⟨j, hl, hm, hst⟩ := h
  obtain ⟨k, hl', hn, htu⟩ := h'
  exact ⟨j + k, Nat.add_le_add hl hl', Nat.add_le_add hm hn, steps_trans hst htu⟩

end Reaches

/-- **Run rule.**  What holds at the start and is kept by every step holds throughout. -/
theorem steps_induction {I : σ → Prop} {k : ℕ} (h0 : I s) (hstep : ∀ u v, I u → f u = .ok v → I v)
    (h : steps f s k = .ok t) : I t := by
  induction k generalizing t with
  | zero =>
    cases h
    exact h0
  | succ k ih =>
    obtain ⟨u, hu, hv⟩ := steps_succ_eq_ok.1 h
    exact hstep u t (ih hu) hv

/-- A shorter prefix of a run. -/
theorem steps_of_le {j k : ℕ} (hjk : j ≤ k) (h : steps f s k = .ok t) :
    ∃ u, steps f s j = .ok u := by
  obtain ⟨d, rfl⟩ := Nat.exists_eq_add_of_le hjk
  rw [steps_add] at h
  obtain ⟨u, hu, -⟩ := bind_eq_ok.1 h
  exact ⟨u, hu⟩

/-- A stopped machine stays where it is. -/
theorem steps_of_stopped {j : ℕ} (h : steps f s j = .ok t) (hstop : f t = .ok t) (d : ℕ) :
    steps f s (j + d) = .ok t := by
  induction d with
  | zero => exact h
  | succ d ih => exact steps_succ_eq_ok.2 ⟨t, ih, hstop⟩

/-- **Late states**: a machine that has stopped is found where it has stopped. -/
theorem Reaches.eq_of_stopped {u : σ} {l n j : ℕ} (h : Reaches f l n s t)
    (hj : steps f s j = .ok u) (hstop : f u = .ok u) (hjl : j ≤ l) : t = u := by
  obtain ⟨k, hl, -, hk⟩ := h
  obtain ⟨d, rfl⟩ := Nat.exists_eq_add_of_le (hjl.trans hl)
  rw [steps_of_stopped hj hstop d] at hk
  exact (Except.ok.inj hk).symm

/-- A machine that stops makes every number of steps. -/
theorem exists_steps_of_stopped {j : ℕ} (h : steps f s j = .ok t) (hstop : f t = .ok t) (k : ℕ) :
    ∃ u, steps f s k = .ok u := by
  rcases Nat.le_total k j with hle | hle
  · exact steps_of_le hle h
  · obtain ⟨d, rfl⟩ := Nat.exists_eq_add_of_le hle
    exact ⟨t, steps_of_stopped h hstop d⟩

/-- A machine stops in one state. -/
theorem eq_of_stopped {u : σ} {j k : ℕ} (h : steps f s j = .ok t) (h' : steps f s k = .ok u)
    (hstop : f t = .ok t) (hstop' : f u = .ok u) : t = u := by
  have hlate := steps_of_stopped h hstop k
  rw [Nat.add_comm, steps_of_stopped h' hstop' j] at hlate
  exact (Except.ok.inj hlate).symm

/-- A fault ends a run. -/
theorem steps_of_error {j : ℕ} {e : Fault ε} (h : steps f s j = .error e) (d : ℕ) :
    steps f s (j + d) = .error e := by
  rw [steps_add, h]
  rfl

/-- **A fault is never left behind**: such a run comes to no state where the machine stops. -/
theorem steps_ne_of_error {j : ℕ} {e : Fault ε} (h : steps f s j = .error e) (hstop : f t = .ok t)
    (k : ℕ) : steps f s k ≠ .ok t := by
  intro hk
  obtain ⟨u, hu⟩ := exists_steps_of_stopped hk hstop j
  rw [h] at hu
  cases hu

/-- A machine with additional state that does not influence the rest. -/
theorem steps_map {p : σ → τ} (h : ∀ s, (f s).map p = g (p s)) (s : σ) (k : ℕ) :
    (steps f s k).map p = steps g (p s) k := by
  induction k with
  | zero => rfl
  | succ k ih =>
    rw [steps_succ, steps_succ, ← ih]
    cases steps f s k with
    | error e => rfl
    | ok t => exact h t

/-! ### Simulations -/

/-- One step of `f` is matched by one or more steps of `g`. -/
def Simulates (R : σ → τ → Prop) (f : σ → Rust ε σ) (g : τ → Rust ε τ) : Prop :=
  ∀ s t, R s t → ∃ m, Rel R (f s) (steps g t (m + 1))

namespace Simulates

variable {R : σ → τ → Prop} {u : τ}

/-- **A run of `f` is matched by a run of `g`** that is at least as long. -/
theorem run (h : Simulates R f g) (h0 : R s u) (k : ℕ) :
    ∃ m, k ≤ m ∧ Rel R (steps f s k) (steps g u m) := by
  induction k with
  | zero => exact ⟨0, le_rfl, h0⟩
  | succ k ih =>
    obtain ⟨m, hkm, hrel⟩ := ih
    cases hf : steps f s k with
    | error e =>
      cases hg : steps g u m with
      | error e' =>
        rw [hf, hg] at hrel
        refine ⟨m + 1, by omega, ?_⟩
        rw [steps_succ, hf, steps_of_error hg]
        exact hrel
      | ok t => rw [hf, hg] at hrel; exact hrel.elim
    | ok s' =>
      cases hg : steps g u m with
      | error e => rw [hf, hg] at hrel; exact hrel.elim
      | ok t =>
        rw [hf, hg] at hrel
        obtain ⟨d, hstep⟩ := h s' t hrel
        refine ⟨m + (d + 1), by omega, ?_⟩
        rw [steps_succ, hf, steps_add, hg]
        exact hstep

/-- The state of `g` after a run of `f`. -/
theorem of_steps (h : Simulates R f g) (h0 : R s u) {k : ℕ} (hs : steps f s k = .ok t) :
    ∃ m v, steps g u m = .ok v ∧ R t v := by
  obtain ⟨m, -, hrel⟩ := h.run h0 k
  cases hg : steps g u m with
  | error e => rw [hs, hg] at hrel; exact hrel.elim
  | ok v => rw [hs, hg] at hrel; exact ⟨m, v, hg, hrel⟩

/-- A fault of `f` is a fault of `g`. -/
theorem error_of_steps (h : Simulates R f g) (h0 : R s u) {k : ℕ} {e : Fault ε}
    (hs : steps f s k = .error e) : ∃ m, steps g u m = .error e := by
  obtain ⟨m, -, hrel⟩ := h.run h0 k
  cases hg : steps g u m with
  | error e' => rw [hs, hg] at hrel; exact ⟨m, hg.trans (congrArg _ hrel.symm)⟩
  | ok v => rw [hs, hg] at hrel; exact hrel.elim

/-- If `g` has stopped, `f` has come to a related state. -/
theorem of_stopped (h : Simulates R f g) (h0 : R s u) {m : ℕ} {v : τ} (hg : steps g u m = .ok v)
    (hstop : g v = .ok v) : ∃ t, steps f s m = .ok t ∧ R t v := by
  obtain ⟨m', hle, hrel⟩ := h.run h0 m
  obtain ⟨d, rfl⟩ := Nat.exists_eq_add_of_le hle
  rw [steps_of_stopped hg hstop d] at hrel
  cases hf : steps f s m with
  | error e => rw [hf] at hrel; exact hrel.elim
  | ok t => rw [hf] at hrel; exact ⟨t, rfl, hrel⟩

/-- A fault of `g` is a fault of `f`. -/
theorem of_error (h : Simulates R f g) (h0 : R s u) {m : ℕ} {e : Fault ε}
    (hg : steps g u m = .error e) : steps f s m = .error e := by
  obtain ⟨m', hle, hrel⟩ := h.run h0 m
  obtain ⟨d, rfl⟩ := Nat.exists_eq_add_of_le hle
  rw [steps_of_error hg d] at hrel
  cases hf : steps f s m with
  | error e' => rw [hf] at hrel; exact congrArg _ hrel
  | ok t => rw [hf] at hrel; exact hrel.elim

end Simulates

end Rust
