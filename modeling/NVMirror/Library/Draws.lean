import NVMirror.Library.Checked

/-!
# Computations that draw from a source of numbers

A generator takes its decisions from a source: a state `ρ` and a function that returns the next
number and the new state.  `Yields x Q` says that, whatever the source, `x` returns a value that
satisfies `Q`; its rules are those of `Meets`, without the state.
-/

namespace Rust

variable {ρ ω α β σ : Type}

/-- A computation that draws from a source with state `ρ`; it does not fail, but it may panic. -/
abbrev Gen (ρ α : Type) := StateT ρ (Rust Empty) α

/-- The next number of the source. -/
def draw (next : ρ → ω × ρ) : Gen ρ ω := fun s => .ok (next s)

/-- Whatever is drawn, the value of `x` satisfies `Q`. -/
def Yields (x : Gen ρ α) (Q : α → Prop) : Prop := ∀ s, Meets (x s) (fun r => Q r.1) fun _ => False

namespace Yields

variable {x : Gen ρ α} {Q Q' : α → Prop}

theorem pure {a : α} (h : Q a) : Yields (Pure.pure a : Gen ρ α) Q := fun _ => Meets.ok h

theorem imp (h : Yields x Q) (hQ : ∀ a, Q a → Q' a) : Yields x Q' :=
  fun s => (h s).imp fun r => hQ r.1

theorem and (h : Yields x Q) (h' : Yields x Q') : Yields x fun a => Q a ∧ Q' a := by
  intro s
  obtain ⟨r, hr, hq⟩ := (h s).exists_ok
  exact hr ▸ Meets.ok ⟨hq, (h' s).of_ok hr⟩

theorem bind {R : β → Prop} {f : α → Gen ρ β} (h : Yields x Q)
    (hf : ∀ a, Q a → Yields (f a) R) : Yields (x >>= f) R :=
  fun s => (h s).bind fun r hr => hf r.1 hr r.2

/-- A step that does not draw. -/
theorem lift {y : Rust Empty α} (h : Meets y Q fun _ => False) :
    Yields (liftM y : Gen ρ α) Q :=
  fun _ => h.bind fun _ ha => Meets.ok ha

theorem draw (next : ρ → ω × ρ) : Yields (Rust.draw next) fun _ => True := fun _ => Meets.ok trivial

/-- **Loop rule.**  An invariant indexed by the number of elements consumed. -/
theorem foldlM {f : σ → α → Gen ρ σ} (I : ℕ → σ → Prop) {xs : List α} {a : σ} (h0 : I 0 a)
    (hstep : ∀ k y a, xs[k]? = some y → I k a → Yields (f a y) (I (k + 1))) :
    Yields (xs.foldlM f a) (I xs.length) := by
  induction xs generalizing I a with
  | nil => exact Yields.pure h0
  | cons y ys ih =>
    rw [List.foldlM_cons]
    refine (hstep 0 y a rfl h0).bind fun b hb => ?_
    exact ih (fun k => I (k + 1)) hb fun k z c hz hc => hstep (k + 1) z c hz hc

/-- The value, and the state the source is left in. -/
theorem exists_ok (h : Yields x Q) (s : ρ) : ∃ a s', x s = .ok (a, s') ∧ Q a := by
  obtain ⟨⟨a, s'⟩, hx, hq⟩ := (h s).exists_ok
  exact ⟨a, s', hx, hq⟩

end Yields

end Rust
