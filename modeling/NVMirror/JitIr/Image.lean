import NVMirror.JitIr.Emission
import NVMirror.JitRegalloc.Semantics

/-!
# Finished code

After patching, the words of every node stand where they were emitted, except that the last word
of a branch is patched with the distance to the first node of its target (`Image`).  The offset of
a node (`nodeOffset`) is four times the number of words before it.
-/

namespace NVMirror

open Rust

variable {κ ε : Type} {W : IrNode → List U32} {B : IrNode → Option (BasicBlockId × κ)}

/-- Number of words before node `j`. -/
def wordPos (W : IrNode → List U32) (code : List IrNode) (j : ℕ) : ℕ :=
  ((code.take j).flatMap W).length

theorem wordPos_succ {code : List IrNode} {j : ℕ} {node : IrNode} (h : code[j]? = some node) :
    wordPos W code (j + 1) = wordPos W code j + (W node).length := by
  unfold wordPos
  rw [List.take_add_one, h, List.flatMap_append, List.length_append]
  simp

theorem wordPos_mono {code : List IrNode} {j j' : ℕ} (h : j ≤ j') :
    wordPos W code j ≤ wordPos W code j' := by
  unfold wordPos
  obtain ⟨d, rfl⟩ := Nat.exists_eq_add_of_le h
  rw [List.take_add, List.flatMap_append, List.length_append]
  omega

/-- The offset is that of one of the words of node `j`. -/
def AtNode (W : IrNode → List U32) (code : List IrNode) (j : ℕ) (pc : ℤ) : Prop :=
  4 * (wordPos W code j : ℤ) ≤ pc ∧ pc < 4 * (wordPos W code (j + 1) : ℤ)

theorem AtNode.unique {code : List IrNode} {j j' : ℕ} {pc : ℤ} (h : AtNode W code j pc)
    (h' : AtNode W code j' pc) : j = j' := by
  obtain ⟨h1, h2⟩ := h
  obtain ⟨h1', h2'⟩ := h'
  rcases lt_trichotomy j j' with hlt | heq | hlt
  · have hle : wordPos W code (j + 1) ≤ wordPos W code j' := wordPos_mono hlt
    omega
  · exact heq
  · have hle : wordPos W code (j' + 1) ≤ wordPos W code j := wordPos_mono hlt
    omega

theorem atNode_word {code : List IrNode} {j : ℕ} {node : IrNode} (hj : code[j]? = some node)
    {k : ℕ} (hk : k < (W node).length) :
    AtNode W code j (4 * (wordPos W code j : ℤ) + 4 * (k : ℤ)) := by
  unfold AtNode
  rw [wordPos_succ hj]
  omega

/-- The words of node `j` among those of all nodes. -/
theorem flatMap_getElem? {code : List IrNode} {j : ℕ} {node : IrNode} (h : code[j]? = some node)
    {i : ℕ} (hi : i < (W node).length) :
    (code.flatMap W)[wordPos W code j + i]? = (W node)[i]? := by
  obtain ⟨hlt, rfl⟩ := List.getElem?_eq_some_iff.1 h
  have hsplit : code.flatMap W = (code.take j).flatMap W ++
      (W code[j] ++ (code.drop (j + 1)).flatMap W) := by
    conv_lhs => rw [← List.take_append_drop j code, List.drop_eq_getElem_cons hlt]
    rw [List.flatMap_append, List.flatMap_cons]
  rw [hsplit, wordPos, List.getElem?_append_right (Nat.le_add_right _ _), Nat.add_sub_cancel_left,
    List.getElem?_append_left hi]

/-- Offset of node `j` in the code: the bytes that are emitted for the nodes before it. -/
def nodeOffset (emitNode : Emitter κ → IrNode → Rust ε (Emitter κ)) (code : List IrNode) (j : ℕ) :
    ℕ :=
  match (code.take j).foldlM emitNode .new with
  | .ok e => e.currentOffset
  | .error _ => 0

theorem nodeOffset_eq {emitNode : Emitter κ → IrNode → Rust ε (Emitter κ)} {code : List IrNode}
    {limit : ℕ} (h : Emission emitNode code W B limit) (j : ℕ) :
    nodeOffset emitNode code j = 4 * wordPos W code j := by
  have hsub : ∀ node ∈ code.take j, node ∈ code := fun node hnode => List.mem_of_mem_take hnode
  have hlen : ((code.take j).flatMap W).length ≤ (code.flatMap W).length := by
    conv_rhs => rw [← List.take_append_drop j code, List.flatMap_append, List.length_append]
    exact Nat.le_add_right _ _
  have hsize := h.size
  have hnew : (Emitter.new : Emitter κ).buf.length = 0 := rfl
  unfold nodeOffset
  obtain ⟨bbOffsets, hfold, -⟩ := foldlM_emitNode h _ hsub .new (by omega)
  rw [hfold]
  show (([] : List U8) ++ ofWords ((code.take j).flatMap W)).length = _
  rw [List.nil_append, length_ofWords]
  rfl

/-- The words `ws` are those of the nodes, with the branches patched. -/
structure Image (W : IrNode → List U32) (B : IrNode → Option (BasicBlockId × κ))
    (patch : κ → ℤ → Option (U32 → U32)) (ir : IrProgram) (ws : List U32) : Prop where
  length_eq : ws.length = wordPos W ir.code ir.code.length
  word : ∀ {j : ℕ} {node : IrNode}, ir.code[j]? = some node → ∀ i < (W node).length,
    B node = none ∨ i + 1 < (W node).length → ws[wordPos W ir.code j + i]? = (W node)[i]?
  branch : ∀ {j : ℕ} {node : IrNode} {t : BasicBlockId} {k : κ}, ir.code[j]? = some node →
    B node = some (t, k) → ∀ {i : ℕ} {w : U32}, i + 1 = (W node).length → (W node)[i]? = some w →
    ∃ ip f, ir.entry t = some ip ∧
      patch k (4 * ((wordPos W ir.code ip : ℤ) - (wordPos W ir.code j + i : ℕ))) = some f ∧
      ws[wordPos W ir.code j + i]? = some (f w)

namespace Image

variable {patch : κ → ℤ → Option (U32 → U32)} {ir : IrProgram} {ws : List U32} {j : ℕ}
  {node : IrNode}

/-- The words of a node, except for the last one of a branch. -/
theorem fetch (himg : Image W B patch ir ws) (hj : ir.code[j]? = some node) {pre rest : List U32}
    (hW : W node = pre ++ rest) (hkeep : B node = none ∨ rest ≠ []) {i : ℕ} {w : U32}
    (hi : pre[i]? = some w) :
    fetchU32 (ofWords ws) (4 * (wordPos W ir.code j : ℤ) + 4 * (i : ℤ)) = some w := by
  have hlt := (List.getElem?_eq_some_iff.1 hi).1
  have hlen : (W node).length = pre.length + rest.length := by rw [hW, List.length_append]
  have hword : (W node)[i]? = some w := by rw [hW, List.getElem?_append_left hlt, hi]
  have hpos : 4 * (wordPos W ir.code j : ℤ) + 4 * (i : ℤ) =
      4 * ((wordPos W ir.code j + i : ℕ) : ℤ) := by
    push_cast
    ring
  rw [hpos]
  refine fetchU32_ofWords
    ((himg.word hj i (by omega) (hkeep.imp_right fun hrest => ?_)).trans hword)
  have := List.length_pos_iff.2 hrest
  omega

/-- The last word of a branch. -/
theorem fetch_branch (himg : Image W B patch ir ws) (hj : ir.code[j]? = some node)
    {t : BasicBlockId} {k : κ} (hB : B node = some (t, k)) {pre : List U32} {w : U32}
    (hW : W node = pre ++ [w]) : ∃ ip f, ir.entry t = some ip ∧
      patch k (4 * ((wordPos W ir.code ip : ℤ) - (wordPos W ir.code j + pre.length : ℕ))) =
        some f ∧
      fetchU32 (ofWords ws) (4 * (wordPos W ir.code j : ℤ) + 4 * (pre.length : ℤ)) =
        some (f w) := by
  have hlen : pre.length + 1 = (W node).length := by
    rw [hW, List.length_append, List.length_singleton]
  have hlast : (W node)[pre.length]? = some w := by rw [hW, List.getElem?_concat_length]
  obtain ⟨ip, f, hentry, hf, hword⟩ := himg.branch hj hB hlen hlast
  refine ⟨ip, f, hentry, hf, ?_⟩
  have hpos : 4 * (wordPos W ir.code j : ℤ) + 4 * (pre.length : ℤ) =
      4 * ((wordPos W ir.code j + pre.length : ℕ) : ℤ) := by
    push_cast
    ring
  rw [hpos]
  exact fetchU32_ofWords hword

/-- Behind the last node there is no word. -/
theorem fetch_end (himg : Image W B patch ir ws) (hj : ir.code[j]? = none) :
    fetchU32 (ofWords ws) (4 * (wordPos W ir.code j : ℤ)) = none := by
  have hend : wordPos W ir.code j = ws.length := by
    rw [himg.length_eq, wordPos, wordPos, List.take_length,
      List.take_of_length_le (List.getElem?_eq_none_iff.1 hj)]
  rw [hend]
  exact fetchU32_end ws

end Image

/-- The nodes before a block. -/
theorem IrProgram.take_code (ir : IrProgram) (i : ℕ) :
    ir.code.take ((ir.blocks.take i).flatMap IrBasicBlock.nodes).length =
      (ir.blocks.take i).flatMap IrBasicBlock.nodes := by
  have hcode : ir.code = (ir.blocks.take i).flatMap IrBasicBlock.nodes ++
      (ir.blocks.drop i).flatMap IrBasicBlock.nodes := by
    rw [← List.flatMap_append, List.take_append_drop]
    rfl
  rw [hcode, List.take_left]

/-- The block of an entry. -/
theorem IrProgram.exists_of_entry {ir : IrProgram} {t : BasicBlockId} {ip : ℕ}
    (h : ir.entry t = some ip) : ∃ (i : ℕ) (b : IrBasicBlock), ir.blocks[i]? = some b ∧ b.id = t ∧
      ip = ((ir.blocks.take i).flatMap IrBasicBlock.nodes).length := by
  obtain ⟨i, hfind, rfl⟩ := Option.map_eq_some_iff.1 h
  obtain ⟨hlt, hid, -⟩ := List.findIdx?_eq_some_iff_getElem.1 hfind
  exact ⟨i, ir.blocks[i], List.getElem?_eq_getElem hlt, of_decide_eq_true hid, rfl⟩

/-- The label of a block with an id of its own. -/
theorem LabelOffsets.of_block {ir : IrProgram} {bbOffsets : List (Option ℕ)}
    (h : LabelOffsets W ir.blocks ir.blocks.length bbOffsets) {i : ℕ} {b : IrBasicBlock}
    (hb : ir.blocks[i]? = some b) (hno : .label b.id ∉ ir.code)
    (hid : ∀ (j : ℕ) (b' : IrBasicBlock), ir.blocks[j]? = some b' → b'.id = b.id → j = i) :
    bbOffsets[b.id.id.toNat]?.join =
      some (4 * (((ir.blocks.take i).flatMap IrBasicBlock.nodes).flatMap W).length) := by
  refine (h _ _ hno).2 ⟨i, b, (List.getElem?_eq_some_iff.1 hb).1, hb, rfl,
    fun j b' hj _ hb' heq => ?_, rfl⟩
  have := hid j b' hb' heq
  omega

/-- **The finished code**, if every block has an id of its own. -/
theorem image_of_patched {emitNode : Emitter κ → IrNode → Rust ε (Emitter κ)} {limit : ℕ}
    {patch : κ → ℤ → Option (U32 → U32)} {ir : IrProgram} {bbOffsets : List (Option ℕ)}
    {ws : List U32} (h : Emission emitNode ir.code W B limit)
    (hid : ∀ (i j : ℕ) (b b' : IrBasicBlock), ir.blocks[i]? = some b → ir.blocks[j]? = some b' →
      b.id = b'.id → i = j)
    (hlabels : LabelOffsets W ir.blocks ir.blocks.length bbOffsets)
    (hpatched : Patched patch bbOffsets (relocs W B 0 ir.code) (ir.code.flatMap W) ws) :
    Image W B patch ir ws := by
  have hlen : ∀ {j : ℕ} {node : IrNode}, ir.code[j]? = some node → ∀ {j' : ℕ}, j < j' →
      wordPos W ir.code j + (W node).length ≤ wordPos W ir.code j' := by
    intro j node hj j' hlt
    rw [← wordPos_succ hj]
    exact wordPos_mono hlt
  refine ⟨?_, ?_, ?_⟩
  · rw [hpatched.length_eq, wordPos, List.take_length]
  · intro j node hj i hi hkeep
    rw [← flatMap_getElem? hj hi]
    refine hpatched.other _ fun r hr hoff => ?_
    -- the relocation would be that of node `j`
    obtain ⟨j', node', t, k, hj', hB, rfl⟩ := mem_relocs.1 hr
    have hpos := List.length_pos_iff.2 (h.ne_nil node' (List.mem_of_getElem? hj') (by simp [hB]))
    have hoff' : wordPos W ir.code j' + ((W node').length - 1) = wordPos W ir.code j + i := by
      dsimp only at hoff
      unfold wordPos at hoff ⊢
      omega
    rcases lt_trichotomy j j' with hlt | rfl | hlt
    · have := hlen hj hlt
      omega
    · rw [hj] at hj'
      cases hj'
      rcases hkeep with hnone | hlast
      · rw [hnone] at hB
        cases hB
      · omega
    · have := hlen hj' hlt
      omega
  · intro j node t k hj hB i w hlast hw
    have hr : (⟨4 * (wordPos W ir.code j + i), t, k⟩ : Relocation κ) ∈ relocs W B 0 ir.code := by
      refine mem_relocs.2 ⟨j, node, t, k, hj, hB, ?_⟩
      congr 1
      unfold wordPos
      omega
    obtain ⟨target, f, w', htarget, hf, hw', hws⟩ := hpatched.patched _ hr _ rfl
    rw [flatMap_getElem? hj (by omega), hw] at hw'
    cases hw'
    obtain ⟨i', b, hi', hb, hbt, -, rfl⟩ := (hlabels _ _ (h.not_mem_of_relocs hr)).1 htarget
    have hentry := IrProgram.entry_of_getElem? hb fun j' b' hlt hb' heq => by
      have := hid _ _ _ _ hb' hb heq
      omega
    rw [hbt] at hentry
    refine ⟨_, f, hentry, ?_, hws⟩
    rw [← hf, wordPos, ir.take_code]
    congr 1
    push_cast
    ring

/-- The displacement of the branch of node `j` to the node at `ip`, in bytes. -/
def displacement (W : IrNode → List U32) (code : List IrNode) (j : ℕ) (node : IrNode) (ip : ℕ) :
    ℤ :=
  4 * ((wordPos W code ip : ℤ) - (wordPos W code j + ((W node).length - 1) : ℕ))

/-- **When patching succeeds**: every target is a block, every displacement can be patched. -/
theorem patch_ok_iff {emitNode : Emitter κ → IrNode → Rust ε (Emitter κ)} {limit : ℕ}
    (outOfRange : BasicBlockId → ε) (patch : κ → ℤ → Option (U32 → U32)) {ir : IrProgram}
    (h : Emission emitNode ir.code W B limit) (hsize : 4 * (ir.code.flatMap W).length < 2 ^ 63)
    (hid : ∀ (i j : ℕ) (b b' : IrBasicBlock), ir.blocks[i]? = some b → ir.blocks[j]? = some b' →
      b.id = b'.id → i = j) :
    (∃ buf, (do
        let e ← Emitter.emitProgram emitNode .new ir
        e.patchRelocations outOfRange patch) = .ok buf) ↔
      ∀ (j : ℕ) node t k, ir.code[j]? = some node → B node = some (t, k) → ∃ ip f,
        ir.entry t = some ip ∧ patch k (displacement W ir.code j node ip) = some f := by
  obtain ⟨bbOffsets, hlabels, -, hmeets⟩ := emission_meets outOfRange patch h hsize
  constructor
  · rintro ⟨buf, hbuf⟩ j node t k hj hB
    obtain ⟨ws, rfl, hpatched⟩ := hmeets.of_ok hbuf
    have himg := image_of_patched h hid hlabels hpatched
    have hpos := List.length_pos_iff.2 (h.ne_nil node (List.mem_of_getElem? hj) (by simp [hB]))
    have hlast : (W node).length - 1 + 1 = (W node).length := by omega
    have hw := List.getElem?_eq_getElem (show (W node).length - 1 < (W node).length by omega)
    obtain ⟨ip, f, hentry, hf, -⟩ := himg.branch hj hB hlast hw
    exact ⟨ip, f, hentry, hf⟩
  · intro hall
    have hfault : ∀ f : Fault ε, (∃ r ∈ relocs W B 0 ir.code, f = .err (outOfRange r.target) ∧
        Unpatchable patch bbOffsets r) → False := by
      rintro f ⟨r, hr, -, hun⟩
      have hno := h.not_mem_of_relocs hr
      obtain ⟨j, node, t, k, hj, hB, rfl⟩ := mem_relocs.1 hr
      obtain ⟨ip, g, hentry, hg⟩ := hall j node t k hj hB
      obtain ⟨i, b, hb, rfl, rfl⟩ := IrProgram.exists_of_entry hentry
      have hoff := hlabels.of_block hb hno fun j' b' hb' heq => hid j' i b' b hb' hb heq
      have hnone := hun _ hoff
      rw [displacement, wordPos, ir.take_code] at hg
      dsimp only at hnone
      have hsame : (4 * (((ir.blocks.take i).flatMap IrBasicBlock.nodes).flatMap W).length : ℕ) -
          ((0 + 4 * ((ir.code.take j).flatMap W).length + 4 * ((W node).length - 1) : ℕ) : ℤ) =
          4 * (((((ir.blocks.take i).flatMap IrBasicBlock.nodes).flatMap W).length : ℤ) -
            (wordPos W ir.code j + ((W node).length - 1) : ℕ)) := by
        unfold wordPos
        push_cast
        ring
      rw [hsame, hg] at hnone
      cases hnone
    obtain ⟨buf, hbuf, -⟩ := (hmeets.mono (fun _ hb => hb) hfault).exists_ok
    exact ⟨buf, hbuf⟩

end NVMirror
