import Mathlib.Tactic

/-!
# Computations that may panic

A small library for programs whose steps can return a value, return an error value, or panic.

* `Rust ε α`: a result `α`, an error `ε`, or a panic; it is Mathlib's `Except` over `Fault ε`, so
  `do` blocks and `?` read as in the source.
* `index`, `setAt`: element access that panics outside the list.
* `usizeAdd`, `usizeSub`, `toIsize`, `isizeAdd`, `isizeSub`: index arithmetic.  A slice is at most
  `isize::MAX` bytes long, so no profile ever needs the wrapped value, and leaving the 64-bit
  range is a panic in every profile.
* `addU`, `subU`, `addS`, `subS`, `negS`: fixed-width arithmetic.  With overflow checks an
  overflow panics, without them it wraps (`Profile`).
* `Meets x Q F`: the value of `x` satisfies `Q`, its fault satisfies `F`.  The rules below
  (`Meets.bind`, `Meets.foldlM`, …) are the weakest-precondition rules of this predicate.
* `Rel R x y`: the values of `x` and `y` are related by `R`, or both have the same fault.
-/

namespace Rust

/-- The build profile: does integer overflow panic, or wrap? -/
class Profile where
  overflowChecks : Bool

/-- Debug and test builds check integer overflow. -/
abbrev debug : Profile := ⟨true⟩

/-- Release builds wrap. -/
abbrev release : Profile := ⟨false⟩

end Rust

/-- Why a computation stops without a value. -/
inductive Fault (ε : Type)
  | panic
  | err (e : ε)
  deriving DecidableEq, Repr

/-- Apply a function to the error value. -/
def Fault.map {ε δ : Type} (f : ε → δ) : Fault ε → Fault δ
  | .panic => .panic
  | .err e => .err (f e)

theorem Fault.map_ne_panic {ε δ : Type} {g : ε → δ} {f : Fault ε} (h : f ≠ .panic) :
    f.map g ≠ .panic := by
  cases f with
  | panic => exact absurd rfl h
  | err e => simp [Fault.map]

/-- A computation that returns `α`, returns the error `ε`, or panics. -/
abbrev Rust (ε α : Type) := Except (Fault ε) α

namespace Rust

variable {ε δ α β σ : Type}

/-- Abort the computation. -/
def panic : Rust ε α := .error .panic

/-- Return an error value. -/
def fail (e : ε) : Rust ε α := .error (.err e)

/-- Convert the error value, as `?` does through `From`. -/
def mapErr (f : ε → δ) : Rust ε α → Rust δ α
  | .ok a => .ok a
  | .error e => .error (e.map f)

/-- `Option::ok_or`. -/
def okOr (o : Option α) (e : ε) : Rust ε α :=
  match o with
  | some a => .ok a
  | none => fail e

/-- `xs[i]`. -/
def index (xs : List α) (i : ℕ) : Rust ε α :=
  match xs[i]? with
  | some x => .ok x
  | none => panic

/-- `xs[i] = v`. -/
def setAt (xs : List α) (i : ℕ) (v : α) : Rust ε (List α) :=
  if i < xs.length then .ok (xs.set i v) else panic

/-! ### Machine integers -/

/-- `Result::expect`. -/
def expect : Rust ε α → Rust δ α
  | .ok a => .ok a
  | .error _ => panic

/-- `a + b` on `usize`. -/
def usizeAdd (a b : ℕ) : Rust ε ℕ := if a + b < 2 ^ 64 then .ok (a + b) else panic

/-- `a - b` on `usize`. -/
def usizeSub (a b : ℕ) : Rust ε ℕ := if b ≤ a then .ok (a - b) else panic

/-- `a + b` on `isize`. -/
def isizeAdd (a b : ℤ) : Rust ε ℤ :=
  if -2 ^ 63 ≤ a + b ∧ a + b < 2 ^ 63 then .ok (a + b) else panic

/-- `a - b` on `isize`. -/
def isizeSub (a b : ℤ) : Rust ε ℤ :=
  if -2 ^ 63 ≤ a - b ∧ a - b < 2 ^ 63 then .ok (a - b) else panic

/-- `a as isize` for a `usize`. -/
def toIsize (a : ℕ) : Rust ε ℤ := if a < 2 ^ 63 then .ok a else panic

/-- `a as usize` for an `isize`. -/
def asUsize (a : ℤ) : ℕ := (a % 2 ^ 64).toNat

section FixedWidth

variable [Profile] {w : ℕ}

/-- The outcome of an operation whose exact result overflows iff `o`. -/
def overflowing (o : Bool) (x : α) : Rust ε α :=
  if Profile.overflowChecks && o then panic else .ok x

/-- Unsigned `x + y`. -/
def addU (x y : BitVec w) : Rust ε (BitVec w) := overflowing (BitVec.uaddOverflow x y) (x + y)

/-- Unsigned `x - y`. -/
def subU (x y : BitVec w) : Rust ε (BitVec w) := overflowing (BitVec.usubOverflow x y) (x - y)

/-- Signed `x + y`. -/
def addS (x y : BitVec w) : Rust ε (BitVec w) := overflowing (BitVec.saddOverflow x y) (x + y)

/-- Signed `x - y`. -/
def subS (x y : BitVec w) : Rust ε (BitVec w) := overflowing (BitVec.ssubOverflow x y) (x - y)

/-- Signed `-x`. -/
def negS (x : BitVec w) : Rust ε (BitVec w) := overflowing (BitVec.negOverflow x) (-x)

theorem overflowing_of_not {o : Bool} (h : o = false) (x : α) :
    overflowing (ε := ε) o x = .ok x := by
  simp [overflowing, h]

theorem eq_of_overflowing {o : Bool} {x y : α} (h : overflowing (ε := ε) o x = .ok y) :
    y = x := by
  unfold overflowing at h
  split at h
  · cases h
  · cases h; rfl

end FixedWidth

/-! ### Successful runs -/

@[simp] theorem ok_bind (a : α) (f : α → Rust ε β) : ((.ok a : Rust ε α) >>= f) = f a := rfl

@[simp] theorem pure_eq (a : α) : (pure a : Rust ε α) = .ok a := rfl

theorem bind_eq_ok {x : Rust ε α} {f : α → Rust ε β} {b : β} :
    (x >>= f) = .ok b ↔ ∃ a, x = .ok a ∧ f a = .ok b := by
  cases x <;> simp [bind, Except.bind]

/-- Results can be compared as options. -/
theorem ok_of_toOption {x : Rust ε α} {a : α} (h : x.toOption = some a) : x = .ok a := by
  cases x with
  | ok b => exact congrArg Except.ok (Option.some.inj h)
  | error f => cases h

/-- Evaluating `isOk` shows that there is a result. -/
theorem exists_ok_of_isOk {x : Rust ε α} (h : x.isOk = true) : ∃ a, x = .ok a := by
  cases x with
  | ok a => exact ⟨a, rfl⟩
  | error f => cases h

@[simp] theorem panic_ne_ok (a : α) : (panic : Rust ε α) ≠ .ok a := by
  simp [panic]

@[simp] theorem fail_ne_ok (e : ε) (a : α) : (fail e : Rust ε α) ≠ .ok a := by
  simp [fail]

theorem mapErr_eq_ok {f : ε → δ} {x : Rust ε α} {a : α} : mapErr f x = .ok a ↔ x = .ok a := by
  cases x <;> simp [mapErr]

theorem mapErr_eq_fail {f : ε → δ} (hf : Function.Injective f) {x : Rust ε α} {e : ε} :
    mapErr f x = fail (f e) ↔ x = fail e := by
  constructor
  · intro h
    cases x with
    | ok a => cases h
    | error e' =>
      cases e' with
      | panic => cases h
      | err e' =>
        cases hf (Fault.err.inj (Except.error.inj h))
        rfl
  · rintro rfl
    rfl

@[simp] theorem mapErr_ok (f : ε → δ) (a : α) : mapErr f (.ok a) = .ok a := rfl

@[simp] theorem mapErr_okOr (f : ε → δ) (o : Option α) (e : ε) :
    mapErr f (okOr o e) = okOr o (f e) := by
  cases o <;> rfl

theorem mapErr_bind (f : ε → δ) (x : Rust ε α) (g : α → Rust ε β) :
    mapErr f (x >>= g) = mapErr f x >>= fun a => mapErr f (g a) := by
  cases x <;> rfl

theorem map_bind (x : Rust ε α) (g : α → Rust ε β) (h : β → σ) :
    (x >>= g).map h = x >>= fun a => (g a).map h := by
  cases x <;> rfl

theorem bind_map (x : Rust ε α) (h : α → β) (g : β → Rust ε σ) :
    x.map h >>= g = x >>= fun a => g (h a) := by
  cases x <;> rfl

/-- A loop commutes with a map of its state when its body does. -/
theorem foldlM_map {f : σ → α → Rust ε σ} {f' : β → α → Rust ε β} {h : σ → β}
    (hf : ∀ s x, f' (h s) x = (f s x).map h) (xs : List α) (s : σ) :
    xs.foldlM f' (h s) = (xs.foldlM f s).map h := by
  induction xs generalizing s with
  | nil => rfl
  | cons x xs ih =>
    rw [List.foldlM_cons, List.foldlM_cons, hf, bind_map, map_bind]
    exact congrArg _ (funext fun s' => ih s')

/-- **Guarded loops.**  A guard that holds after every part of a loop changes nothing. -/
theorem foldlM_guard {f : σ → α → Rust ε σ} {P : σ → Prop} [DecidablePred P] {xs : List α} {s : σ}
    (h : ∀ j t, (xs.take j).foldlM f s = .ok t → P t) :
    xs.foldlM (fun s a => f s a >>= fun t => if P t then .ok t else panic) s = xs.foldlM f s := by
  induction xs generalizing s with
  | nil => rfl
  | cons a xs ih =>
    rw [List.foldlM_cons, List.foldlM_cons]
    cases ht : f s a with
    | error e => rfl
    | ok t =>
      have htake : ∀ j u, (xs.take j).foldlM f t = .ok u → P u := by
        intro j u hu
        refine h (j + 1) u ?_
        rw [List.take_succ_cons, List.foldlM_cons, ht]
        exact hu
      rw [ok_bind, ok_bind, if_pos (htake 0 t rfl)]
      exact ih htake

/-- **Loops that fail** do so at the first element that fails. -/
theorem exists_of_foldlM_error {f : σ → α → Rust ε σ} {xs : List α} {s : σ} {e : Fault ε}
    (h : xs.foldlM f s = .error e) :
    ∃ (k : ℕ) (a : α) (t : σ), xs[k]? = some a ∧ (xs.take k).foldlM f s = .ok t ∧
      f t a = .error e := by
  induction xs generalizing s with
  | nil => cases h
  | cons a xs ih =>
    rw [List.foldlM_cons] at h
    cases ht : f s a with
    | error e' =>
      rw [ht] at h
      cases h
      exact ⟨0, a, s, rfl, rfl, ht⟩
    | ok t =>
      rw [ht, ok_bind] at h
      obtain ⟨k, b, u, hk, htake, hfail⟩ := ih h
      refine ⟨k + 1, b, u, hk, ?_, hfail⟩
      rw [List.take_succ_cons, List.foldlM_cons, ht]
      exact htake

theorem okOr_eq_ok {o : Option α} {e : ε} {a : α} : okOr o e = .ok a ↔ o = some a := by
  cases o <;> simp [okOr]

theorem index_eq_ok {xs : List α} {i : ℕ} {x : α} :
    index (ε := ε) xs i = .ok x ↔ xs[i]? = some x := by
  unfold index
  cases xs[i]? <;> simp

theorem index_of_getElem? {xs : List α} {i : ℕ} {x : α} (h : xs[i]? = some x) :
    index (ε := ε) xs i = .ok x :=
  index_eq_ok.2 h

theorem setAt_of_lt {xs : List α} {i : ℕ} (h : i < xs.length) (v : α) :
    setAt (ε := ε) xs i v = .ok (xs.set i v) :=
  if_pos h

theorem usizeAdd_of_lt {a b : ℕ} (h : a + b < 2 ^ 64) : usizeAdd (ε := ε) a b = .ok (a + b) :=
  if_pos h

theorem usizeAdd_eq_ok {a b c : ℕ} :
    usizeAdd (ε := ε) a b = .ok c ↔ a + b < 2 ^ 64 ∧ a + b = c := by
  unfold usizeAdd
  split_ifs with h
  · exact ⟨fun hc => ⟨h, Except.ok.inj hc⟩, fun hc => congrArg _ hc.2⟩
  · exact ⟨fun hc => absurd hc (panic_ne_ok _), fun hc => absurd hc.1 h⟩

theorem usizeSub_of_le {a b : ℕ} (h : b ≤ a) : usizeSub (ε := ε) a b = .ok (a - b) :=
  if_pos h

theorem isizeAdd_of_range {a b : ℤ} (h : -2 ^ 63 ≤ a + b ∧ a + b < 2 ^ 63) :
    isizeAdd (ε := ε) a b = .ok (a + b) :=
  if_pos h

theorem isizeAdd_eq_ok {a b c : ℤ} :
    isizeAdd (ε := ε) a b = .ok c ↔ (-2 ^ 63 ≤ a + b ∧ a + b < 2 ^ 63) ∧ a + b = c := by
  unfold isizeAdd
  split_ifs with h
  · exact ⟨fun hc => ⟨h, Except.ok.inj hc⟩, fun hc => congrArg _ hc.2⟩
  · exact ⟨fun hc => absurd hc (panic_ne_ok _), fun hc => absurd hc.1 h⟩

theorem isizeSub_of_range {a b : ℤ} (h : -2 ^ 63 ≤ a - b ∧ a - b < 2 ^ 63) :
    isizeSub (ε := ε) a b = .ok (a - b) :=
  if_pos h

theorem isizeSub_eq_ok {a b c : ℤ} :
    isizeSub (ε := ε) a b = .ok c ↔ (-2 ^ 63 ≤ a - b ∧ a - b < 2 ^ 63) ∧ a - b = c := by
  unfold isizeSub
  split_ifs with h
  · exact ⟨fun hc => ⟨h, Except.ok.inj hc⟩, fun hc => congrArg _ hc.2⟩
  · exact ⟨fun hc => absurd hc (panic_ne_ok _), fun hc => absurd hc.1 h⟩

theorem toIsize_of_lt {a : ℕ} (h : a < 2 ^ 63) : toIsize (ε := ε) a = .ok (a : ℤ) :=
  if_pos h

theorem toIsize_eq_ok {a : ℕ} {b : ℤ} :
    toIsize (ε := ε) a = .ok b ↔ a < 2 ^ 63 ∧ (a : ℤ) = b := by
  unfold toIsize
  split_ifs with h
  · exact ⟨fun hc => ⟨h, Except.ok.inj hc⟩, fun hc => congrArg _ hc.2⟩
  · exact ⟨fun hc => absurd hc (panic_ne_ok _), fun hc => absurd hc.1 h⟩

theorem asUsize_of_nonneg {a : ℤ} (h0 : 0 ≤ a) (h : a < 2 ^ 64) : asUsize a = a.toNat := by
  unfold asUsize
  rw [Int.emod_eq_of_lt h0 h]

/-- The elements an enumerated loop runs through. -/
theorem getElem?_zipIdx_eq_some {xs : List α} {k i : ℕ} {x : α} :
    xs.zipIdx[k]? = some (x, i) ↔ xs[k]? = some x ∧ k = i := by
  rw [List.getElem?_zipIdx]
  cases xs[k]? <;> simp

/-! ### Specifications -/

/-- The value of `x` satisfies `Q`, its fault satisfies `F`. -/
def Meets (x : Rust ε α) (Q : α → Prop) (F : Fault ε → Prop) : Prop :=
  match x with
  | .ok a => Q a
  | .error f => F f

namespace Meets

variable {x : Rust ε α} {Q Q' : α → Prop} {F F' : Fault ε → Prop}

theorem ok {a : α} (h : Q a) : Meets (.ok a) Q F := h

theorem fail {e : ε} (h : F (.err e)) : Meets (Rust.fail e : Rust ε α) Q F := h

theorem panic (h : F .panic) : Meets (Rust.panic : Rust ε α) Q F := h

theorem of_ok {a : α} (h : Meets x Q F) (hx : x = .ok a) : Q a := by
  subst hx; exact h

theorem ne_panic (h : Meets x Q F) (hF : ¬ F .panic) : x ≠ Rust.panic := by
  rintro rfl; exact hF h

/-- Without a possible fault there is a value. -/
theorem exists_ok (h : Meets x Q fun _ => False) : ∃ a, x = .ok a ∧ Q a := by
  cases x with
  | error f => exact h.elim
  | ok a => exact ⟨a, rfl, h⟩

theorem mono (h : Meets x Q F) (hQ : ∀ a, Q a → Q' a) (hF : ∀ f, F f → F' f) :
    Meets x Q' F' := by
  cases x with
  | error f => exact hF f h
  | ok a => exact hQ a h

theorem imp (h : Meets x Q F) (hQ : ∀ a, Q a → Q' a) : Meets x Q' F :=
  h.mono hQ fun _ hf => hf

theorem bind {R : β → Prop} {g : α → Rust ε β} (h : Meets x Q F)
    (hg : ∀ a, Q a → Meets (g a) R F) : Meets (x >>= g) R F := by
  cases x with
  | error f => exact h
  | ok a => exact hg a h

theorem mapErr {f : ε → δ} {G : Fault δ → Prop} (h : Meets x Q fun e => G (e.map f)) :
    Meets (Rust.mapErr f x) Q G := by
  cases x with
  | error e => exact h
  | ok a => exact h

theorem okOr {o : Option α} {e : ε} (hQ : ∀ a, o = some a → Q a) (hF : o = none → F (.err e)) :
    Meets (Rust.okOr o e) Q F := by
  cases o with
  | none => exact hF rfl
  | some a => exact hQ a rfl

/-- **Loop rule.**  An invariant indexed by the number of elements consumed. -/
theorem foldlM {f : σ → α → Rust ε σ} (I : ℕ → σ → Prop) {xs : List α} {s : σ} (h0 : I 0 s)
    (hstep : ∀ k x s, xs[k]? = some x → I k s → Meets (f s x) (I (k + 1)) F) :
    Meets (xs.foldlM f s) (I xs.length) F := by
  induction xs generalizing I s with
  | nil => exact h0
  | cons x xs ih =>
    rw [List.foldlM_cons]
    refine (hstep 0 x s rfl h0).bind fun s' hs' => ?_
    exact ih (fun k => I (k + 1)) hs' fun k y t hy ht => hstep (k + 1) y t hy ht

end Meets

section Primitives

variable {F : Fault ε → Prop}

theorem meets_index {xs : List α} {i : ℕ} (h : i < xs.length) :
    Meets (index xs i) (fun x => xs[i]? = some x) F := by
  rw [index_of_getElem? (List.getElem?_eq_getElem h)]
  exact Meets.ok (List.getElem?_eq_getElem h)

theorem meets_setAt {xs : List α} {i : ℕ} {v : α} (h : i < xs.length) :
    Meets (setAt xs i v) (fun ys => ys = xs.set i v) F := by
  rw [setAt_of_lt h]
  exact Meets.ok rfl

/-- Filling a range of a list with one value. -/
theorem meets_foldlM_setAt {xs : List α} {s k : ℕ} {v : α} (h : s + k ≤ xs.length) :
    Meets ((List.range' s k).foldlM (fun m i => setAt m i v) xs)
      (fun ys => ys.length = xs.length ∧
        ∀ p : ℕ, ys[p]? = if s ≤ p ∧ p < s + k then some v else xs[p]?) F := by
  let I : ℕ → List α → Prop := fun j ys => ys.length = xs.length ∧
    ∀ p : ℕ, ys[p]? = if s ≤ p ∧ p < s + j then some v else xs[p]?
  have hI0 : I 0 xs := ⟨rfl, fun p => by rw [if_neg (by omega)]⟩
  refine (Meets.foldlM I hI0 ?_).imp fun ys hys => by simpa [I] using hys
  rintro j i ys hi ⟨hlen, hget⟩
  have hj : j < k := by simpa using (List.getElem?_eq_some_iff.1 hi).1
  rw [List.getElem?_range' hj, one_mul] at hi
  cases hi
  refine (meets_setAt (by omega)).imp fun zs hzs => ?_
  subst hzs
  refine ⟨by simpa using hlen, fun p => ?_⟩
  rw [List.getElem?_set, hget p]
  split_ifs <;> first | rfl | omega

theorem meets_usizeAdd {a b : ℕ} (h : 2 ^ 64 ≤ a + b → F .panic) :
    Meets (usizeAdd a b) (fun c => a + b < 2 ^ 64 ∧ c = a + b) F := by
  unfold usizeAdd
  split_ifs with hlt
  · exact Meets.ok ⟨hlt, rfl⟩
  · exact Meets.panic (h (by omega))

theorem meets_usizeSub {a b : ℕ} (h : b ≤ a) : Meets (usizeSub a b) (fun c => c = a - b) F := by
  rw [usizeSub_of_le h]
  exact Meets.ok rfl

theorem meets_toIsize {a : ℕ} (h : 2 ^ 63 ≤ a → F .panic) :
    Meets (toIsize a) (fun b => a < 2 ^ 63 ∧ b = (a : ℤ)) F := by
  unfold toIsize
  split_ifs with hlt
  · exact Meets.ok ⟨hlt, rfl⟩
  · exact Meets.panic (h (by omega))

theorem meets_isizeAdd {a b : ℤ} (h : ¬ (-2 ^ 63 ≤ a + b ∧ a + b < 2 ^ 63) → F .panic) :
    Meets (isizeAdd a b) (fun c => (-2 ^ 63 ≤ a + b ∧ a + b < 2 ^ 63) ∧ c = a + b) F := by
  unfold isizeAdd
  split_ifs with hr
  · exact Meets.ok ⟨hr, rfl⟩
  · exact Meets.panic (h hr)

/-- A signed difference in range. -/
theorem meets_subS [Profile] {w : ℕ} {x y : BitVec w}
    (h : -2 ^ (w - 1) ≤ x.toInt - y.toInt ∧ x.toInt - y.toInt < 2 ^ (w - 1)) :
    Meets (subS x y) (fun v => v.toInt = x.toInt - y.toInt) F := by
  have hno : BitVec.ssubOverflow x y = false := by
    rw [BitVec.ssubOverflow, Bool.or_eq_false_iff, decide_eq_false_iff_not, decide_eq_false_iff_not]
    exact ⟨not_le.2 h.2, not_lt.2 h.1⟩
  rw [subS, overflowing_of_not hno]
  exact Meets.ok (BitVec.toInt_sub_of_not_ssubOverflow (by simp [hno]))

/-- A signed sum in range. -/
theorem meets_addS [Profile] {w : ℕ} {x y : BitVec w}
    (h : -2 ^ (w - 1) ≤ x.toInt + y.toInt ∧ x.toInt + y.toInt < 2 ^ (w - 1)) :
    Meets (addS x y) (fun v => v.toInt = x.toInt + y.toInt) F := by
  have hno : BitVec.saddOverflow x y = false := by
    rw [BitVec.saddOverflow, Bool.or_eq_false_iff, decide_eq_false_iff_not, decide_eq_false_iff_not]
    exact ⟨not_le.2 h.2, not_lt.2 h.1⟩
  rw [addS, overflowing_of_not hno]
  exact Meets.ok (BitVec.toInt_add_of_not_saddOverflow (by simp [hno]))

end Primitives

/-! ### Two computations -/

/-- Two computations with related values, or the same fault. -/
def Rel (R : α → β → Prop) : Rust ε α → Rust ε β → Prop
  | .ok a, .ok b => R a b
  | .error e, .error f => e = f
  | _, _ => False

namespace Rel

variable {R : α → β → Prop} {x : Rust ε α} {y : Rust ε β}

theorem ok {a : α} {b : β} (h : R a b) : Rel (ε := ε) R (.ok a) (.ok b) := h

theorem refl (x : Rust ε α) : Rel (fun a b => a = b) x x := by
  cases x <;> exact rfl

theorem imp {R' : α → β → Prop} (h : Rel R x y)
    (hR : ∀ a b, x = .ok a → y = .ok b → R a b → R' a b) : Rel R' x y := by
  cases x <;> cases y <;> first | exact hR _ _ rfl rfl h | exact h

theorem mono {R' : α → β → Prop} (h : Rel R x y) (hR : ∀ a b, R a b → R' a b) : Rel R' x y :=
  h.imp fun a b _ _ => hR a b

theorem bind {γ κ : Type} {S : γ → κ → Prop} {f : α → Rust ε γ} {g : β → Rust ε κ}
    (h : Rel R x y) (hfg : ∀ a b, R a b → Rel S (f a) (g b)) : Rel S (x >>= f) (y >>= g) := by
  cases x <;> cases y <;> first | exact hfg _ _ h | exact h.elim | exact h

theorem map_left {γ : Type} {S : γ → β → Prop} {f : α → γ} (h : Rel (fun a b => S (f a) b) x y) :
    Rel S (x.map f) y := by
  cases x <;> cases y <;> exact h

/-- The same computation, continued in two ways. -/
theorem bind_same {γ κ : Type} {S : γ → κ → Prop} (x : Rust ε α) {f : α → Rust ε γ}
    {g : α → Rust ε κ} (hfg : ∀ a, Rel S (f a) (g a)) : Rel S (x >>= f) (x >>= g) :=
  (Rel.refl x).bind fun a _ hab => hab ▸ hfg a

end Rel

end Rust
