import Mathlib.Tactic

/-!
# Little-endian bytes

* `leBytes n v` lists the low `n` bytes of `v`, least significant first; `ofLeBytes` reads such a
  list back (`ofLeBytes_leBytes`).  `swapBytes` reverses the byte order of a word
  (`byteAt_swapBytes`).  Words with the same bytes are equal (`eq_iff_byteAt`).
* `loadLe`, `storeLe`: access to a memory with one byte per address.  Addresses wrap around.
  A load reads what was stored at the same address (`loadLe_storeLe`); a store elsewhere does not
  matter (`loadLe_storeLe_of_disjoint`).  `storeLe_eq_storeLe_iff` compares stores of two sizes.
* `storeSlots`: store 64-bit values at offsets from a base; each can be loaded again
  (`loadLe_storeSlots`).
-/

namespace Bytes

variable {w : ℕ}

/-- Byte `i` of a word, byte `0` being the least significant. -/
def byteAt (v : BitVec w) (i : ℕ) : BitVec 8 := (v >>> (8 * i)).setWidth 8

/-- The low `n` bytes of `v`, least significant first. -/
def leBytes (n : ℕ) (v : BitVec w) : List (BitVec 8) := (List.range n).map (byteAt v)

/-- The word whose bytes, least significant first, are `bs`. -/
def ofLeBytes (w : ℕ) (bs : List (BitVec 8)) : BitVec w :=
  bs.foldr (fun b acc => acc <<< 8 ||| b.setWidth w) 0

/-- Reverse the byte order of a word of `n` bytes. -/
def swapBytes (n : ℕ) (v : BitVec w) : BitVec w := ofLeBytes w (leBytes n v).reverse

@[simp] theorem length_leBytes (n : ℕ) (v : BitVec w) : (leBytes n v).length = n := by
  simp [leBytes]

/-- A word read from bytes, bit by bit. -/
theorem getLsbD_ofLeBytes (bs : List (BitVec 8)) {i : ℕ} (hi : i < w) :
    (ofLeBytes w bs).getLsbD i = ((bs[i / 8]?).getD 0).getLsbD (i % 8) := by
  induction bs generalizing i with
  | nil => simp [ofLeBytes]
  | cons b bs ih =>
    have hcons : ofLeBytes w (b :: bs) = ofLeBytes w bs <<< 8 ||| b.setWidth w := rfl
    rw [hcons, BitVec.getLsbD_or, BitVec.getLsbD_shiftLeft, BitVec.getLsbD_setWidth]
    by_cases hlt : i < 8
    · rw [Nat.div_eq_of_lt hlt, Nat.mod_eq_of_lt hlt]
      simp [hlt, hi]
    · obtain ⟨j, rfl⟩ := Nat.exists_eq_add_of_le (not_lt.1 hlt)
      have hb : b.getLsbD (8 + j) = false := BitVec.getLsbD_of_ge _ _ (by omega)
      rw [hb, Nat.add_sub_cancel_left, ih (by omega), Nat.add_div_left j (by omega),
        Nat.add_mod_left]
      simp [hi]

/-- A word is put together again from its bytes. -/
theorem ofLeBytes_leBytes {n : ℕ} (v : BitVec w) (h : w ≤ 8 * n) :
    ofLeBytes w (leBytes n v) = v := by
  refine BitVec.eq_of_getLsbD_eq fun i hi => ?_
  have hdiv : i / 8 < n := by omega
  rw [getLsbD_ofLeBytes _ hi, leBytes, List.getElem?_map, List.getElem?_range hdiv]
  simp only [Option.map_some, Option.getD_some, byteAt, BitVec.getLsbD_setWidth,
    BitVec.getLsbD_ushiftRight]
  rw [Nat.div_add_mod, decide_eq_true (Nat.mod_lt i (by omega)), Bool.true_and]

/-! ### Bytes of words -/

/-- Bit `j` of a byte. -/
theorem getLsbD_byteAt (v : BitVec w) (i : ℕ) {j : ℕ} (hj : j < 8) :
    (byteAt v i).getLsbD j = v.getLsbD (8 * i + j) := by
  rw [byteAt, BitVec.getLsbD_setWidth, BitVec.getLsbD_ushiftRight, decide_eq_true hj, Bool.true_and]

/-- Words with the same bytes are equal. -/
theorem eq_iff_byteAt {n : ℕ} (hw : w ≤ 8 * n) {u v : BitVec w} :
    u = v ↔ ∀ i < n, byteAt u i = byteAt v i := by
  constructor
  · rintro rfl i _
    rfl
  · intro h
    rw [← ofLeBytes_leBytes u hw, ← ofLeBytes_leBytes v hw, leBytes, leBytes]
    congr 1
    exact List.map_congr_left fun i hi => h i (List.mem_range.1 hi)

/-- There are no bytes above the word. -/
theorem byteAt_of_le (v : BitVec w) {i : ℕ} (h : w ≤ 8 * i) : byteAt v i = 0 := by
  refine BitVec.eq_of_getLsbD_eq fun j hj => ?_
  rw [getLsbD_byteAt v i hj, BitVec.getLsbD_of_ge v _ (by omega)]
  exact BitVec.getLsbD_zero.symm

theorem byteAt_setWidth (v : BitVec w) {w' i : ℕ} (h : 8 * i + 8 ≤ w') :
    byteAt (v.setWidth w') i = byteAt v i := by
  refine BitVec.eq_of_getLsbD_eq fun j hj => ?_
  rw [getLsbD_byteAt _ i hj, getLsbD_byteAt v i hj, BitVec.getLsbD_setWidth,
    decide_eq_true (by omega), Bool.true_and]

theorem byteAt_extractLsb' (v : BitVec w) (k : ℕ) {len i : ℕ} (h : 8 * i + 8 ≤ len) :
    byteAt (v.extractLsb' (8 * k) len) i = byteAt v (k + i) := by
  refine BitVec.eq_of_getLsbD_eq fun j hj => ?_
  rw [getLsbD_byteAt _ i hj, getLsbD_byteAt v _ hj, BitVec.getLsbD_extractLsb',
    decide_eq_true (by omega), Bool.true_and, Nat.mul_add, Nat.add_assoc]

theorem byteAt_and (u v : BitVec w) (i : ℕ) : byteAt (u &&& v) i = byteAt u i &&& byteAt v i := by
  refine BitVec.eq_of_getLsbD_eq fun j hj => ?_
  rw [BitVec.getLsbD_and, getLsbD_byteAt _ i hj, getLsbD_byteAt u i hj, getLsbD_byteAt v i hj,
    BitVec.getLsbD_and]

/-- A word read from bytes has these bytes. -/
theorem byteAt_ofLeBytes (bs : List (BitVec 8)) {i : ℕ} (h : 8 * i + 8 ≤ w) :
    byteAt (ofLeBytes w bs) i = (bs[i]?).getD 0 := by
  refine BitVec.eq_of_getLsbD_eq fun j hj => ?_
  have hdiv : (8 * i + j) / 8 = i := by omega
  have hmod : (8 * i + j) % 8 = j := by omega
  rw [getLsbD_byteAt _ i hj, getLsbD_ofLeBytes bs (by omega), hdiv, hmod]

/-- **Byte reversal.** -/
theorem byteAt_swapBytes (v : BitVec w) {n i : ℕ} (hi : i < n) (h : 8 * i + 8 ≤ w) :
    byteAt (swapBytes n v) i = byteAt v (n - 1 - i) := by
  have hlen : i < (leBytes n v).length := by rwa [length_leBytes]
  have hget : (leBytes n v).reverse[i]? = some (byteAt v (n - 1 - i)) := by
    rw [List.getElem?_reverse hlen, length_leBytes, leBytes, List.getElem?_map,
      List.getElem?_range (by omega), Option.map_some]
  rw [swapBytes, byteAt_ofLeBytes _ h, hget, Option.getD_some]

/-! ### Memories -/

/-- Address `a + i`. -/
def addrAt (a : BitVec 64) (i : ℕ) : BitVec 64 := a + BitVec.ofNat 64 i

/-- Is the address a multiple of `n`? -/
def isAligned (n : ℕ) (a : BitVec 64) : Bool := a.toNat % n = 0

/-- The `n` bytes at `a`. -/
def loadLe (w n : ℕ) (mem : BitVec 64 → BitVec 8) (a : BitVec 64) : BitVec w :=
  ofLeBytes w ((List.range n).map fun i => mem (addrAt a i))

/-- Store the low `n` bytes of `v` at `a`. -/
def storeLe (n : ℕ) (mem : BitVec 64 → BitVec 8) (a : BitVec 64) (v : BitVec w) :
    BitVec 64 → BitVec 8 := fun b =>
  if (b - a).toNat < n then byteAt v (b - a).toNat else mem b

/-- The byte a store leaves at an address above its own. -/
theorem storeLe_addrAt (mem : BitVec 64 → BitVec 8) (a : BitVec 64) (v : BitVec w) {n i : ℕ}
    (hi : i < 2 ^ 64) :
    storeLe n mem a v (addrAt a i) = if i < n then byteAt v i else mem (addrAt a i) := by
  have hoff : (addrAt a i - a).toNat = i := by
    rw [addrAt, BitVec.add_comm, BitVec.add_sub_cancel, BitVec.toNat_ofNat, Nat.mod_eq_of_lt hi]
  rw [storeLe, hoff]

/-- A load reads what was stored. -/
theorem loadLe_storeLe {n : ℕ} (mem : BitVec 64 → BitVec 8) (a : BitVec 64) (v : BitVec w)
    (hw : w ≤ 8 * n) (hn : n < 2 ^ 64) : loadLe w n (storeLe n mem a v) a = v := by
  have hbytes : ((List.range n).map fun i => storeLe n mem a v (addrAt a i)) = leBytes n v := by
    refine List.map_congr_left fun i hi => ?_
    have hi := List.mem_range.1 hi
    rw [storeLe_addrAt mem a v (by omega), if_pos hi]
  rw [loadLe, hbytes, ofLeBytes_leBytes v hw]

/-- The bytes of a loaded word. -/
theorem byteAt_loadLe (mem : BitVec 64 → BitVec 8) (a : BitVec 64) {n i : ℕ} (hi : i < n)
    (h : 8 * i + 8 ≤ w) : byteAt (loadLe w n mem a) i = mem (addrAt a i) := by
  rw [loadLe, byteAt_ofLeBytes _ h, List.getElem?_map, List.getElem?_range hi, Option.map_some,
    Option.getD_some]

/-- There is nothing above the bytes that were loaded. -/
theorem byteAt_loadLe_of_le (mem : BitVec 64 → BitVec 8) (a : BitVec 64) {n i : ℕ} (hi : n ≤ i)
    (h : 8 * i + 8 ≤ w) : byteAt (loadLe w n mem a) i = 0 := by
  have hlen : ((List.range n).map fun i => mem (addrAt a i)).length ≤ i := by simpa using hi
  rw [loadLe, byteAt_ofLeBytes _ h, List.getElem?_eq_none hlen, Option.getD_none]

/-- Every address lies above the one of a store. -/
theorem exists_addrAt (a b : BitVec 64) : ∃ i < 2 ^ 64, b = addrAt a i := by
  refine ⟨(b - a).toNat, (b - a).isLt, ?_⟩
  rw [addrAt, BitVec.ofNat_toNat, BitVec.setWidth_eq, BitVec.add_comm, BitVec.sub_add_cancel]

/-- **Stores of two sizes**: the larger one has to leave the bytes that the other one does not
cover. -/
theorem storeLe_eq_storeLe_iff (mem : BitVec 64 → BitVec 8) (a : BitVec 64) {w' m n : ℕ}
    (u : BitVec w) (v : BitVec w') (hnm : n ≤ m) (hm : m < 2 ^ 64) :
    storeLe m mem a u = storeLe n mem a v ↔ (∀ i < n, byteAt u i = byteAt v i) ∧
      ∀ i, n ≤ i → i < m → byteAt u i = mem (addrAt a i) := by
  constructor
  · intro h
    have hbyte : ∀ i < m, byteAt u i = if i < n then byteAt v i else mem (addrAt a i) := by
      intro i hi
      have hat := congrFun h (addrAt a i)
      rwa [storeLe_addrAt mem a u (by omega), storeLe_addrAt mem a v (by omega), if_pos hi] at hat
    refine ⟨fun i hi => ?_, fun i hi him => ?_⟩
    · rw [hbyte i (by omega), if_pos hi]
    · rw [hbyte i him, if_neg (by omega)]
  · rintro ⟨hlow, hhigh⟩
    funext b
    obtain ⟨i, hi, rfl⟩ := exists_addrAt a b
    rw [storeLe_addrAt mem a u hi, storeLe_addrAt mem a v hi]
    split_ifs with him hin hin
    · exact hlow i hin
    · exact hhigh i (by omega) him
    · omega
    · rfl

/-- A store of what is there already. -/
theorem storeLe_eq_self_iff (mem : BitVec 64 → BitVec 8) (a : BitVec 64) {n : ℕ} (v : BitVec w)
    (hn : n < 2 ^ 64) : storeLe n mem a v = mem ↔ ∀ i < n, byteAt v i = mem (addrAt a i) := by
  have hzero : storeLe 0 mem a v = mem := by
    funext b
    exact if_neg (Nat.not_lt_zero _)
  have hiff := storeLe_eq_storeLe_iff mem a v v (Nat.zero_le n) hn
  rw [hzero] at hiff
  rw [hiff]
  exact ⟨fun h i hi => h.2 i (Nat.zero_le i) hi,
    fun h => ⟨fun i hi => absurd hi (Nat.not_lt_zero i), fun i _ hi => h i hi⟩⟩

/-- A store elsewhere does not matter. -/
theorem loadLe_storeLe_of_disjoint {n n' : ℕ} (mem : BitVec 64 → BitVec 8) {a b : BitVec 64}
    (v : BitVec w) {w' : ℕ} (hab : n ≤ (b - a).toNat) (hba : n' ≤ (a - b).toNat) :
    loadLe w' n' (storeLe n mem a v) b = loadLe w' n' mem b := by
  have hbytes : ((List.range n').map fun i => storeLe n mem a v (addrAt b i)) =
      (List.range n').map fun i => mem (addrAt b i) := by
    refine List.map_congr_left fun i hi => ?_
    have hi := List.mem_range.1 hi
    have hoff : n ≤ (addrAt b i - a).toNat := by
      rw [addrAt, BitVec.toNat_sub, BitVec.toNat_add, BitVec.toNat_ofNat]
      rw [BitVec.toNat_sub] at hab hba
      omega
    rw [storeLe, if_neg (by omega)]
  rw [loadLe, hbytes, loadLe]

/-! ### Slots -/

/-- Store 64-bit values at offsets from `base`. -/
def storeSlots (mem : BitVec 64 → BitVec 8) (base : BitVec 64) (slots : List (ℕ × BitVec 64)) :
    BitVec 64 → BitVec 8 :=
  slots.foldl (fun mem slot => storeLe 8 mem (addrAt base slot.1) slot.2) mem

theorem storeSlots_append (mem : BitVec 64 → BitVec 8) (base : BitVec 64)
    (slots slots' : List (ℕ × BitVec 64)) :
    storeSlots (storeSlots mem base slots) base slots' = storeSlots mem base (slots ++ slots') :=
  List.foldl_append.symm

/-- Slots below and above one another do not overlap. -/
theorem loadLe_storeLe_addrAt (mem : BitVec 64 → BitVec 8) (base v : BitVec 64) {i j : ℕ}
    (hi : i < 2 ^ 32) (hj : j < 2 ^ 32) (hij : i + 8 ≤ j ∨ j + 8 ≤ i) :
    loadLe 64 8 (storeLe 8 mem (addrAt base i) v) (addrAt base j) =
      loadLe 64 8 mem (addrAt base j) := by
  have hb := base.isLt
  have hsub : ∀ i j : ℕ, i < 2 ^ 32 → j < 2 ^ 32 →
      (addrAt base j - addrAt base i).toNat = (2 ^ 64 + j - i) % 2 ^ 64 := by
    intro i j hi hj
    rw [addrAt, addrAt, BitVec.toNat_sub, BitVec.toNat_add, BitVec.toNat_add, BitVec.toNat_ofNat,
      BitVec.toNat_ofNat]
    omega
  refine loadLe_storeLe_of_disjoint mem v ?_ ?_
  · rw [hsub i j hi hj]
    omega
  · rw [hsub j i hj hi]
    omega

/-- Slots stored elsewhere do not matter. -/
theorem loadLe_storeSlots_of_disjoint (mem : BitVec 64 → BitVec 8) (base : BitVec 64)
    {slots : List (ℕ × BitVec 64)} {j : ℕ} (hj : j < 2 ^ 32)
    (h : ∀ slot ∈ slots, slot.1 < 2 ^ 32 ∧ (slot.1 + 8 ≤ j ∨ j + 8 ≤ slot.1)) :
    loadLe 64 8 (storeSlots mem base slots) (addrAt base j) = loadLe 64 8 mem (addrAt base j) := by
  induction slots generalizing mem with
  | nil => rfl
  | cons slot rest ih =>
    obtain ⟨hlt, hdisj⟩ := h slot List.mem_cons_self
    have hrest := ih (storeLe 8 mem (addrAt base slot.1) slot.2) fun s hs =>
      h s (List.mem_cons_of_mem _ hs)
    exact hrest.trans (loadLe_storeLe_addrAt mem base slot.2 hlt hj hdisj)

/-- **Every slot can be loaded again.** -/
theorem loadLe_storeSlots (mem : BitVec 64 → BitVec 8) (base : BitVec 64)
    {slots : List (ℕ × BitVec 64)} (hlt : ∀ slot ∈ slots, slot.1 < 2 ^ 32)
    (hpair : slots.Pairwise fun s t => s.1 + 8 ≤ t.1 ∨ t.1 + 8 ≤ s.1) {j : ℕ} {v : BitVec 64}
    (h : (j, v) ∈ slots) : loadLe 64 8 (storeSlots mem base slots) (addrAt base j) = v := by
  induction slots generalizing mem with
  | nil => cases h
  | cons slot rest ih =>
    obtain ⟨hfirst, hpair⟩ := List.pairwise_cons.1 hpair
    have hlt' : ∀ s ∈ rest, s.1 < 2 ^ 32 := fun s hs => hlt s (List.mem_cons_of_mem _ hs)
    rcases List.mem_cons.1 h with rfl | hmem
    · have hdisj := loadLe_storeSlots_of_disjoint (storeLe 8 mem (addrAt base j) v) base
        (hlt _ List.mem_cons_self) fun s hs => ⟨hlt' s hs, (hfirst s hs).symm⟩
      exact hdisj.trans (loadLe_storeLe mem _ v le_rfl (by decide))
    · exact ih _ hlt' hpair hmem

end Bytes
