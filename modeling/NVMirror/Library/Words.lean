import NVMirror.Library.Bytes
import NVMirror.Library.Checked

/-!
# Buffers of 32-bit words

A byte buffer that holds 32-bit little-endian words: `ofWords ws` are the bytes of the words `ws`,
`readU32` and `writeU32` access four bytes and panic outside the buffer.  At a multiple of four
they read and replace one word of the list (`readU32_ofWords`, `writeU32_ofWords`).  `fetchU32`
reads at an offset that may lie outside; `CodeAt` says that words stand at an offset.
-/

namespace Rust

open Bytes

variable {ε : Type}

/-- `u32::from_le_bytes` of the four bytes at `o`. -/
def readU32 (buf : List (BitVec 8)) (o : ℕ) : Rust ε (BitVec 32) := do
  let b0 ← index buf o
  let b1 ← index buf (o + 1)
  let b2 ← index buf (o + 2)
  let b3 ← index buf (o + 3)
  pure (ofLeBytes 32 [b0, b1, b2, b3])

/-- `buf[o..o + 4].copy_from_slice(&v.to_le_bytes())`. -/
def writeU32 (buf : List (BitVec 8)) (o : ℕ) (v : BitVec 32) : Rust ε (List (BitVec 8)) :=
  if o + 4 ≤ buf.length then .ok (buf.take o ++ leBytes 4 v ++ buf.drop (o + 4)) else panic

/-- The word at an offset, if there is one. -/
def fetchU32 (buf : List (BitVec 8)) (o : ℤ) : Option (BitVec 32) :=
  if 0 ≤ o then (readU32 (ε := Empty) buf o.toNat).toOption else none

/-- The bytes of a list of words. -/
def ofWords (ws : List (BitVec 32)) : List (BitVec 8) := ws.flatMap (leBytes 4)

@[simp] theorem ofWords_nil : ofWords [] = [] := rfl

theorem ofWords_append (ws ws' : List (BitVec 32)) :
    ofWords (ws ++ ws') = ofWords ws ++ ofWords ws' :=
  List.flatMap_append

@[simp] theorem length_ofWords (ws : List (BitVec 32)) : (ofWords ws).length = 4 * ws.length := by
  induction ws with
  | nil => rfl
  | cons w ws ih =>
    rw [ofWords, List.flatMap_cons, List.length_append, length_leBytes, ← ofWords, ih,
      List.length_cons]
    omega

theorem ofWords_injective : Function.Injective ofWords := by
  intro ws ws' h
  induction ws generalizing ws' with
  | nil =>
    cases ws' with
    | nil => rfl
    | cons w' ws' => cases h
  | cons w ws ih =>
    cases ws' with
    | nil => cases h
    | cons w' ws' =>
      obtain ⟨h1, h2⟩ := List.append_inj h (by rw [length_leBytes, length_leBytes])
      rw [ih h2, ← ofLeBytes_leBytes (n := 4) w le_rfl, ← ofLeBytes_leBytes (n := 4) w' le_rfl, h1]

/-- A word splits the buffer. -/
theorem ofWords_split {ws : List (BitVec 32)} {i : ℕ} {v : BitVec 32} (h : ws[i]? = some v) :
    ofWords ws = ofWords (ws.take i) ++ (leBytes 4 v ++ ofWords (ws.drop (i + 1))) := by
  obtain ⟨hi, rfl⟩ := List.getElem?_eq_some_iff.1 h
  conv_lhs => rw [← List.take_append_drop i ws, List.drop_eq_getElem_cons hi, ofWords_append]
  rfl

theorem readU32_ofWords {ws : List (BitVec 32)} {i : ℕ} {v : BitVec 32} (h : ws[i]? = some v) :
    readU32 (ε := ε) (ofWords ws) (4 * i) = .ok v := by
  have hi := (List.getElem?_eq_some_iff.1 h).1
  have hlen : (ofWords (ws.take i)).length = 4 * i := by
    rw [length_ofWords, List.length_take, Nat.min_eq_left hi.le]
  -- byte `j` of the word stands at `4 * i + j`
  have hbyte : ∀ j < 4, (ofWords ws)[4 * i + j]? = some (byteAt v j) := by
    intro j hj
    rw [ofWords_split h, List.getElem?_append_right (by omega), hlen, Nat.add_sub_cancel_left,
      List.getElem?_append_left (by rwa [length_leBytes]), leBytes, List.getElem?_map,
      List.getElem?_range hj]
    rfl
  have h0 := hbyte 0 (by omega)
  rw [Nat.add_zero] at h0
  unfold readU32
  rw [index_of_getElem? h0, ok_bind, index_of_getElem? (hbyte 1 (by omega)),
    ok_bind, index_of_getElem? (hbyte 2 (by omega)), ok_bind,
    index_of_getElem? (hbyte 3 (by omega)), ok_bind]
  exact congrArg Except.ok (ofLeBytes_leBytes (n := 4) v le_rfl)

theorem fetchU32_ofWords {ws : List (BitVec 32)} {i : ℕ} {v : BitVec 32} (h : ws[i]? = some v) :
    fetchU32 (ofWords ws) (4 * (i : ℤ)) = some v := by
  have hnat : (4 * (i : ℤ)).toNat = 4 * i := by omega
  unfold fetchU32
  rw [if_pos (by omega), hnat, readU32_ofWords h]
  rfl

/-- There is no word behind the last one. -/
theorem fetchU32_end (ws : List (BitVec 32)) :
    fetchU32 (ofWords ws) (4 * (ws.length : ℤ)) = none := by
  have hnat : (4 * (ws.length : ℤ)).toNat = 4 * ws.length := by omega
  unfold fetchU32 readU32 index
  rw [if_pos (by omega), hnat, List.getElem?_eq_none (by rw [length_ofWords])]
  rfl

/-- What stands behind a buffer does not change the words in it. -/
theorem fetchU32_append {buf : List (BitVec 8)} {o : ℤ} {v : BitVec 32}
    (h : fetchU32 buf o = some v) (rest : List (BitVec 8)) :
    fetchU32 (buf ++ rest) o = some v := by
  have hindex : ∀ {i : ℕ} {b : BitVec 8}, index (ε := Empty) buf i = .ok b →
      index (ε := Empty) (buf ++ rest) i = .ok b := by
    intro i b hb
    obtain ⟨hlt, rfl⟩ := List.getElem?_eq_some_iff.1 (index_eq_ok.1 hb)
    exact index_of_getElem? ((List.getElem?_append_left hlt).trans (List.getElem?_eq_getElem hlt))
  unfold fetchU32 at *
  split_ifs at h ⊢
  · have hread := ok_of_toOption h
    unfold readU32 at hread ⊢
    obtain ⟨b0, h0, hread⟩ := bind_eq_ok.1 hread
    obtain ⟨b1, h1, hread⟩ := bind_eq_ok.1 hread
    obtain ⟨b2, h2, hread⟩ := bind_eq_ok.1 hread
    obtain ⟨b3, h3, hread⟩ := bind_eq_ok.1 hread
    cases hread
    rw [hindex h0, ok_bind, hindex h1, ok_bind, hindex h2, ok_bind, hindex h3]
    rfl

theorem writeU32_ofWords {ws : List (BitVec 32)} {i : ℕ} (hi : i < ws.length) (v : BitVec 32) :
    writeU32 (ε := ε) (ofWords ws) (4 * i) v = .ok (ofWords (ws.set i v)) := by
  have hlen : (ofWords (ws.take i)).length = 4 * i := by
    rw [length_ofWords, List.length_take, Nat.min_eq_left hi.le]
  have hset : (ws.set i v)[i]? = some v := by
    rw [List.getElem?_set_self hi]
  unfold writeU32
  rw [if_pos (by rw [length_ofWords]; omega), ofWords_split hset,
    ofWords_split (List.getElem?_eq_getElem hi)]
  congr 1
  rw [List.take_set_of_le le_rfl, List.drop_set_of_lt (Nat.lt_succ_self i), ← hlen,
    List.take_left, List.append_assoc]
  congr 2
  rw [← List.append_assoc, List.drop_left' (by rw [List.length_append, length_leBytes])]

/-! ### Words in the code -/

/-- The words stand in the code at `pc`. -/
def CodeAt (code : List (BitVec 8)) (pc : ℤ) (ws : List (BitVec 32)) : Prop :=
  ∀ (i : ℕ) (w : BitVec 32), ws[i]? = some w → fetchU32 code (pc + 4 * i) = some w

/-- The first word. -/
theorem CodeAt.head {code : List (BitVec 8)} {pc : ℤ} {w : BitVec 32} {ws : List (BitVec 32)}
    (h : CodeAt code pc (w :: ws)) : fetchU32 code pc = some w := by
  have h0 := h 0 w rfl
  rwa [Nat.cast_zero, mul_zero, add_zero] at h0

/-- The words after the first ones. -/
theorem CodeAt.drop {code : List (BitVec 8)} {pc : ℤ} {ws ws' : List (BitVec 32)}
    (h : CodeAt code pc (ws ++ ws')) : CodeAt code (pc + 4 * ws.length) ws' := by
  intro i w hi
  have hget : (ws ++ ws')[ws.length + i]? = some w := by
    rw [List.getElem?_append_right (Nat.le_add_right _ _), Nat.add_sub_cancel_left, hi]
  have hi' := h (ws.length + i) w hget
  rwa [Nat.cast_add, mul_add, ← add_assoc] at hi'

theorem CodeAt.take {code : List (BitVec 8)} {pc : ℤ} {ws ws' : List (BitVec 32)}
    (h : CodeAt code pc (ws ++ ws')) : CodeAt code pc ws := by
  intro i w hi
  refine h i w ?_
  rw [List.getElem?_append_left (List.getElem?_eq_some_iff.1 hi).1, hi]

/-- The code that consists of the words. -/
theorem codeAt_ofWords (ws : List (BitVec 32)) : CodeAt (ofWords ws) 0 ws := by
  intro i w hw
  rw [zero_add]
  exact fetchU32_ofWords hw

/-- The first words of a code. -/
theorem codeAt_take (ws : List (BitVec 32)) (k : ℕ) : CodeAt (ofWords ws) 0 (ws.take k) := by
  intro i w hi
  rw [List.getElem?_take] at hi
  split_ifs at hi
  exact codeAt_ofWords ws i w hi

end Rust
