import NVMirror.Library.Bytes

/-!
# Regions of memory

A region is the addresses from `a` to `a + n - 1`, modulo `2 ^ 64`.

* `storeLe_of_notInRegion`, `storeSlots_of_notInRegion`: a store changes its region only.
* `loadLe_congr`: a load depends on its region only.
* `BytesAt mem a f`: the region holds the bytes `f`.  `BytesAt.storeLe` and `BytesAt.of_eq` are the
  stores inside and outside.
-/

namespace Bytes

variable {w : ℕ} {mem mem' : BitVec 64 → BitVec 8} {a b x : BitVec 64} {n m i : ℕ}

/-- `x` is one of the `n` addresses from `a` on. -/
def InRegion (a : BitVec 64) (n : ℕ) (x : BitVec 64) : Prop := (x - a).toNat < n

instance (a : BitVec 64) (n : ℕ) (x : BitVec 64) : Decidable (InRegion a n x) :=
  inferInstanceAs (Decidable (_ < _))

theorem sub_addrAt (a : BitVec 64) (hi : i < 2 ^ 64) : (addrAt a i - a).toNat = i := by
  rw [addrAt, BitVec.add_comm, BitVec.add_sub_cancel, BitVec.toNat_ofNat, Nat.mod_eq_of_lt hi]

theorem inRegion_addrAt (hi : i < 2 ^ 64) : InRegion a n (addrAt a i) ↔ i < n := by
  rw [InRegion, sub_addrAt a hi]

/-- A region inside another one. -/
theorem InRegion.of_sub (hsub : (b - a).toNat + m ≤ n) (h : InRegion b m x) : InRegion a n x := by
  show (x - a).toNat < n
  have hlt : (x - b).toNat < m := h
  have hx := x.isLt
  rw [BitVec.toNat_sub] at *
  omega

/-- No address lies in both regions. -/
def Apart (a : BitVec 64) (n : ℕ) (b : BitVec 64) (m : ℕ) : Prop :=
  ∀ x, InRegion a n x → ¬ InRegion b m x

/-- A region that ends before the other one begins. -/
theorem Apart.of_le (h : a.toNat + n ≤ b.toNat) (hb : b.toNat + m ≤ 2 ^ 64) : Apart a n b m := by
  intro x hx hx'
  have hlt := x.isLt
  unfold InRegion at *
  rw [BitVec.toNat_sub] at hx hx'
  omega

/-- A region that begins behind the other one. -/
theorem apart_add (b : BitVec 64) {d : ℕ} (hm : m ≤ d) (hn : d + n ≤ 2 ^ 64) :
    Apart (b + BitVec.ofNat 64 d) n b m := by
  intro x hx hx'
  have hxlt := x.isLt
  unfold InRegion at *
  rw [BitVec.toNat_sub] at hx hx'
  rw [BitVec.toNat_add, BitVec.toNat_ofNat] at hx
  omega

/-! ### Stores and loads -/

theorem storeLe_of_notInRegion (v : BitVec w) (h : ¬ InRegion a n x) :
    storeLe n mem a v x = mem x :=
  if_neg h

theorem storeSlots_of_notInRegion {slots : List (ℕ × BitVec 64)}
    (hslots : ∀ slot ∈ slots, slot.1 + 8 ≤ n) (hn : n ≤ 2 ^ 64) (h : ¬ InRegion a n x) :
    storeSlots mem a slots x = mem x := by
  induction slots generalizing mem with
  | nil => rfl
  | cons slot rest ih =>
    have hle := hslots slot List.mem_cons_self
    have hrest : storeSlots mem a (slot :: rest) x = storeLe 8 mem (addrAt a slot.1) slot.2 x :=
      ih fun s hs => hslots s (List.mem_cons_of_mem _ hs)
    rw [hrest]
    refine storeLe_of_notInRegion _ fun hin => h (hin.of_sub ?_)
    rw [sub_addrAt a (by omega)]
    exact hle

theorem loadLe_congr (hn : n ≤ 2 ^ 64) (h : ∀ x, InRegion a n x → mem x = mem' x) :
    loadLe w n mem a = loadLe w n mem' a := by
  have hbytes : ((List.range n).map fun i => mem (addrAt a i)) =
      (List.range n).map fun i => mem' (addrAt a i) := by
    refine List.map_congr_left fun i hi => ?_
    have hi := List.mem_range.1 hi
    exact h _ ((inRegion_addrAt (by omega)).2 hi)
  rw [loadLe, loadLe, hbytes]

/-! ### Bytes in a region -/

/-- The region at `a` holds the bytes `f`. -/
def BytesAt (mem : BitVec 64 → BitVec 8) (a : BitVec 64) (f : Fin n → BitVec 8) : Prop :=
  ∀ i : Fin n, mem (addrAt a i) = f i

namespace BytesAt

variable {f : Fin n → BitVec 8}

/-- A memory that is the same in the region. -/
theorem of_eq (h : BytesAt mem a f) (hn : n ≤ 2 ^ 64)
    (heq : ∀ x, InRegion a n x → mem' x = mem x) : BytesAt mem' a f := by
  intro i
  have hi := i.isLt
  rw [heq _ ((inRegion_addrAt (by omega)).2 hi), h i]

/-- A byte at some distance. -/
theorem get (h : BytesAt mem a f) (hin : InRegion a n x) : mem x = f ⟨(x - a).toNat, hin⟩ := by
  have hx : x = addrAt a (x - a).toNat := by
    rw [addrAt, BitVec.ofNat_toNat, BitVec.setWidth_eq, BitVec.add_comm, BitVec.sub_add_cancel]
  have hget := h ⟨(x - a).toNat, hin⟩
  rwa [← hx] at hget

/-- **A store inside the region** writes these bytes of it. -/
theorem storeLe (h : BytesAt mem a f) (hn : n ≤ 2 ^ 64) (hsub : (b - a).toNat + m ≤ n)
    (v : BitVec w) : BytesAt (Bytes.storeLe m mem b v) a fun i : Fin n =>
      if (b - a).toNat ≤ i ∧ i < (b - a).toNat + m then byteAt v (i - (b - a).toNat) else f i := by
  intro i
  have hi := i.isLt
  have hdist : (addrAt a i - b).toNat = (2 ^ 64 + i - (b - a).toNat) % 2 ^ 64 := by
    have hb : b = addrAt a (b - a).toNat := by
      rw [addrAt, BitVec.ofNat_toNat, BitVec.setWidth_eq, BitVec.add_comm, BitVec.sub_add_cancel]
    have hlt := (b - a).isLt
    have ha := a.isLt
    conv_lhs => rw [hb]
    rw [addrAt, addrAt, BitVec.toNat_sub, BitVec.toNat_add, BitVec.toNat_add, BitVec.toNat_ofNat,
      BitVec.toNat_ofNat]
    generalize (b - a).toNat = d at *
    omega
  show (if (addrAt a i - b).toNat < m then byteAt v (addrAt a i - b).toNat
    else mem (addrAt a i)) = ite _ _ _
  rw [hdist]
  have hlt := (b - a).isLt
  by_cases hin : (b - a).toNat ≤ i ∧ i < (b - a).toNat + m
  · have hmod : (2 ^ 64 + (i : ℕ) - (b - a).toNat) % 2 ^ 64 = i - (b - a).toNat := by omega
    rw [hmod, if_pos (by omega), if_pos hin]
  · rw [if_neg (by omega), if_neg hin, h i]

end BytesAt

end Bytes
