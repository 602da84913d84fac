import NVMirror.Library.Checked
import NVMirror.Library.Draws

/-!
# Computations of two builds

`Refines x y`: both computations are equal unless `y` panics.  A build without overflow checks
refines one with overflow checks (`Refines.overflowing`), and refinement is kept by all that
computations are put together from.
-/

namespace Rust

variable {ε δ ρ ω α β σ : Type}

/-- The computations are equal, unless the second one panics. -/
def Refines (x y : Rust ε α) : Prop := y ≠ panic → x = y

namespace Refines

theorem refl (x : Rust ε α) : Refines x x := fun _ => rfl

theorem of_eq {x y : Rust ε α} (h : x = y) : Refines x y := fun _ => h

theorem bind {x y : Rust ε α} {f g : α → Rust ε β} (h : Refines x y)
    (hfg : ∀ a, Refines (f a) (g a)) : Refines (x >>= f) (y >>= g) := by
  intro hne
  by_cases hy : y = panic
  · rw [hy] at hne
    exact absurd rfl hne
  · rw [h hy]
    cases y with
    | ok a => exact hfg a hne
    | error f => rfl

theorem mapErr {x y : Rust ε α} (h : Refines x y) (f : ε → δ) :
    Refines (Rust.mapErr f x) (Rust.mapErr f y) := by
  intro hne
  by_cases hy : y = panic
  · rw [hy] at hne
    exact absurd rfl hne
  · rw [h hy]

theorem ite {p : Prop} [Decidable p] {x y x' y' : Rust ε α} (h : p → Refines x y)
    (h' : ¬ p → Refines x' y') : Refines (if p then x else x') (if p then y else y') := by
  split_ifs with hp
  · exact h hp
  · exact h' hp

theorem foldlM {f g : σ → α → Rust ε σ} (hfg : ∀ s a, Refines (f s a) (g s a)) (xs : List α)
    (s : σ) : Refines (xs.foldlM f s) (xs.foldlM g s) := by
  induction xs generalizing s with
  | nil => exact refl _
  | cons a xs ih =>
    rw [List.foldlM_cons, List.foldlM_cons]
    exact (hfg s a).bind ih

/-! ### Fixed-width integers -/

theorem overflowing (o : Bool) (x : α) :
    Refines (@Rust.overflowing ε α release o x) (@Rust.overflowing ε α debug o x) := by
  intro hne
  cases o with
  | true => exact absurd rfl hne
  | false => rfl

variable {w : ℕ} (x y : BitVec w)

theorem addU : Refines (@Rust.addU ε release w x y) (@Rust.addU ε debug w x y) := overflowing _ _

theorem subU : Refines (@Rust.subU ε release w x y) (@Rust.subU ε debug w x y) := overflowing _ _

theorem addS : Refines (@Rust.addS ε release w x y) (@Rust.addS ε debug w x y) := overflowing _ _

theorem subS : Refines (@Rust.subS ε release w x y) (@Rust.subS ε debug w x y) := overflowing _ _

theorem negS : Refines (@Rust.negS ε release w x) (@Rust.negS ε debug w x) := overflowing _ _

end Refines

/-! ### Generators -/

/-- Refinement from every state of the source. -/
def Gen.Refines (x y : Gen ρ α) : Prop := ∀ s, Rust.Refines (x s) (y s)

namespace Gen.Refines

theorem refl (x : Gen ρ α) : Gen.Refines x x := fun _ => Rust.Refines.refl _

theorem bind {x y : Gen ρ α} {f g : α → Gen ρ β} (h : Gen.Refines x y)
    (hfg : ∀ a, Gen.Refines (f a) (g a)) : Gen.Refines (x >>= f) (y >>= g) :=
  fun s => (h s).bind fun r => hfg r.1 r.2

theorem lift {x y : Rust Empty α} (h : Rust.Refines x y) :
    Gen.Refines (liftM x : Gen ρ α) (liftM y) :=
  fun _ => h.bind fun _ => Rust.Refines.refl _

theorem ite {p : Prop} [Decidable p] {x y x' y' : Gen ρ α} (h : p → Gen.Refines x y)
    (h' : ¬ p → Gen.Refines x' y') : Gen.Refines (if p then x else x') (if p then y else y') := by
  split_ifs with hp
  · exact h hp
  · exact h' hp

theorem foldlM {f g : σ → α → Gen ρ σ} (hfg : ∀ s a, Gen.Refines (f s a) (g s a)) (xs : List α)
    (s : σ) : Gen.Refines (xs.foldlM f s) (xs.foldlM g s) := by
  induction xs generalizing s with
  | nil => exact refl _
  | cons a xs ih =>
    rw [List.foldlM_cons, List.foldlM_cons]
    exact (hfg s a).bind ih

end Gen.Refines

end Rust
