import NVMirror.JitIr.Emitter

/-!
# The layout of emitted code

For any emitter whose nodes emit a fixed list of words (`Emission`), with at most one relocation,
at the last of these words.  A block may hold labels of its own, if no branch leads to them.

* `emitProgram_eq`: the buffer holds the words of all nodes in order, the relocations are those
  of the nodes (`relocs`), and the offset of a block is that of its first word (`LabelOffsets`).
* `patchRelocations_meets`: the patched buffer differs from it in the relocated words only, and
  those are the patched ones (`Patched`).  The loop never panics.
-/

namespace NVMirror

open Rust Bytes

/-! ### One node -/

/-- A node inside a block: not a label, and with a frame below 2¹⁵ bytes. -/
def IrNode.InBlock : IrNode → Prop
  | .label _ => False
  | .prologue frameSize | .epilogue frameSize => frameSize.toNat < 2 ^ 15
  | _ => True

variable {κ ε : Type}

/-- The emitter after emitting words, with a relocation at the last one for a branch. -/
def Emitter.append (e : Emitter κ) (ws : List U32) (branch : Option (BasicBlockId × κ)) :
    Emitter κ where
  buf := e.buf ++ ofWords ws
  bbOffsets := e.bbOffsets
  relocations := e.relocations ++
    branch.toList.map fun x => ⟨e.buf.length + 4 * (ws.length - 1), x.1, x.2⟩

namespace Emitter

variable {e : Emitter κ}

theorem emit32_eq (e : Emitter κ) (w : U32) : e.emit32 w = e.append [w] none := by
  simp [emit32, append, ofWords]

theorem append_nil (e : Emitter κ) : e.append [] none = e := by
  simp [append]

theorem append_append (e : Emitter κ) (ws ws' : List U32) :
    (e.append ws none).append ws' none = e.append (ws ++ ws') none := by
  simp [append, ofWords_append]

theorem append_append_branch (e : Emitter κ) (ws : List U32) {ws' : List U32} (h : ws' ≠ [])
    (branch : Option (BasicBlockId × κ)) :
    (e.append ws none).append ws' branch = e.append (ws ++ ws') branch := by
  have hpos := List.length_pos_iff.2 h
  have hoff : e.buf.length + 4 * ws.length + 4 * (ws'.length - 1) =
      e.buf.length + 4 * (ws.length + ws'.length - 1) := by
    omega
  simp [append, ofWords_append, hoff]

theorem emitWords_eq (e : Emitter κ) (ws : List U32) : e.emitWords ws = e.append ws none := by
  induction ws generalizing e with
  | nil => exact (append_nil e).symm
  | cons w ws ih =>
    have hcons : e.emitWords (w :: ws) = (e.emit32 w).emitWords ws := rfl
    rw [hcons, ih, emit32_eq, append_append]
    rfl

/-- A word with a relocation. -/
theorem pushRelocation_emit32 (e : Emitter κ) (w : U32) (target : BasicBlockId) (kind : κ) :
    (e.emit32 w).pushRelocation e.currentOffset target kind =
      e.append [w] (some (target, kind)) := by
  simp [emit32, pushRelocation, append, currentOffset, ofWords]

end Emitter

/-- A node emits `ws`, with a relocation for `branch`, into every buffer up to `limit`. -/
def Emits (emitNode : Emitter κ → IrNode → Rust ε (Emitter κ)) (limit : ℕ) (node : IrNode)
    (ws : List U32) (branch : Option (BasicBlockId × κ)) : Prop :=
  ∀ e : Emitter κ, e.buf.length ≤ limit → emitNode e node = .ok (e.append ws branch)

theorem Emits.unique {emitNode : Emitter κ → IrNode → Rust ε (Emitter κ)} {limit : ℕ}
    {node : IrNode} {ws ws' : List U32} {branch branch' : Option (BasicBlockId × κ)}
    (h : Emits emitNode limit node ws branch) (h' : Emits emitNode limit node ws' branch') :
    ws = ws' := by
  have heq := Except.ok.inj ((h .new (Nat.zero_le _)).symm.trans (h' .new (Nat.zero_le _)))
  have hbuf : ofWords ws = ofWords ws' := congrArg Emitter.buf heq
  exact ofWords_injective hbuf

/-- The words `W` and the branches `B` of the nodes of `code`.  A label has no words, and no branch
leads to it.  `limit` bounds the buffer. -/
structure Emission (emitNode : Emitter κ → IrNode → Rust ε (Emitter κ)) (code : List IrNode)
    (W : IrNode → List U32) (B : IrNode → Option (BasicBlockId × κ)) (limit : ℕ) : Prop where
  label : ∀ e bb, emitNode e (.label bb) = e.emitLabel bb
  node : ∀ node ∈ code, (∀ bb, node ≠ .label bb) → Emits emitNode limit node (W node) (B node)
  inner : ∀ bb, .label bb ∈ code → W (.label bb) = [] ∧ B (.label bb) = none ∧
    ∀ node ∈ code, ∀ k, B node ≠ some (bb, k)
  ne_nil : ∀ node ∈ code, B node ≠ none → W node ≠ []
  size : 4 * (code.flatMap W).length ≤ limit

variable {emitNode : Emitter κ → IrNode → Rust ε (Emitter κ)} {code : List IrNode}
  {W : IrNode → List U32} {B : IrNode → Option (BasicBlockId × κ)} {limit : ℕ}

/-- The relocations of a list of nodes whose words start at offset `base`. -/
def relocs (W : IrNode → List U32) (B : IrNode → Option (BasicBlockId × κ)) :
    ℕ → List IrNode → List (Relocation κ)
  | _, [] => []
  | base, node :: rest =>
    ((B node).toList.map fun x => ⟨base + 4 * ((W node).length - 1), x.1, x.2⟩) ++
      relocs W B (base + 4 * (W node).length) rest

theorem relocs_append (base : ℕ) (code code' : List IrNode) :
    relocs W B base (code ++ code') =
      relocs W B base code ++ relocs W B (base + 4 * (code.flatMap W).length) code' := by
  induction code generalizing base with
  | nil => rfl
  | cons node rest ih =>
    rw [List.cons_append, relocs, relocs, ih, List.flatMap_cons, List.length_append,
      List.append_assoc, Nat.mul_add, Nat.add_assoc]

/-- Where the relocations come from. -/
theorem mem_relocs {base : ℕ} {code : List IrNode} {r : Relocation κ} :
    r ∈ relocs W B base code ↔ ∃ (j : ℕ) (node : IrNode) (t : BasicBlockId) (k : κ),
      code[j]? = some node ∧ B node = some (t, k) ∧
        r = ⟨base + 4 * ((code.take j).flatMap W).length + 4 * ((W node).length - 1), t, k⟩ := by
  induction code generalizing base with
  | nil => simp [relocs]
  | cons node rest ih =>
    rw [relocs, List.mem_append, ih]
    constructor
    · rintro (h | ⟨j, node', t, k, hj, hB, rfl⟩)
      · obtain ⟨⟨t, k⟩, hx, rfl⟩ := List.mem_map.1 h
        exact ⟨0, node, t, k, rfl, Option.mem_toList.1 hx, by simp⟩
      · refine ⟨j + 1, node', t, k, hj, hB, ?_⟩
        rw [List.take_succ_cons, List.flatMap_cons, List.length_append]
        congr 1
        omega
    · rintro ⟨j, node', t, k, hj, hB, rfl⟩
      cases j with
      | zero =>
        cases hj
        exact Or.inl (List.mem_map.2 ⟨(t, k), Option.mem_toList.2 hB, by simp⟩)
      | succ j =>
        refine Or.inr ⟨j, node', t, k, hj, hB, ?_⟩
        rw [List.take_succ_cons, List.flatMap_cons, List.length_append]
        congr 1
        omega

/-- The relocations lie in the words of their nodes. -/
theorem relocs_bounds (hne : ∀ node ∈ code, B node ≠ none → W node ≠ []) {base : ℕ}
    {r : Relocation κ} (h : r ∈ relocs W B base code) :
    base ≤ r.offset ∧ r.offset + 4 ≤ base + 4 * (code.flatMap W).length ∧
      ∃ i, r.offset = base + 4 * i := by
  obtain ⟨j, node, t, k, hj, hB, rfl⟩ := mem_relocs.1 h
  have hmem := List.mem_of_getElem? hj
  have hpos := List.length_pos_iff.2 (hne node hmem (by simp [hB]))
  have hlen : (code.flatMap W).length =
      ((code.take j).flatMap W).length +
        ((W node).length + ((code.drop (j + 1)).flatMap W).length) := by
    obtain ⟨hlt, rfl⟩ := List.getElem?_eq_some_iff.1 hj
    conv_lhs => rw [← List.take_append_drop j code, List.drop_eq_getElem_cons hlt]
    rw [List.flatMap_append, List.flatMap_cons, List.length_append, List.length_append]
  refine ⟨by dsimp only; omega, by dsimp only; omega,
    ((code.take j).flatMap W).length + ((W node).length - 1), by dsimp only; omega⟩

/-- The relocations are in increasing order. -/
theorem relocs_pairwise (hne : ∀ node ∈ code, B node ≠ none → W node ≠ []) (base : ℕ) :
    (relocs W B base code).Pairwise fun r r' => r.offset < r'.offset := by
  induction code generalizing base with
  | nil => exact List.Pairwise.nil
  | cons node rest ih =>
    have hrest : ∀ node' ∈ rest, B node' ≠ none → W node' ≠ [] := fun node' h =>
      hne node' (List.mem_cons_of_mem _ h)
    rw [relocs, List.pairwise_append]
    refine ⟨?_, ih hrest _, fun r hr r' hr' => ?_⟩
    · cases B node <;> simp
    · obtain ⟨⟨t, k⟩, hx, rfl⟩ := List.mem_map.1 hr
      have hpos := List.length_pos_iff.2 (hne node List.mem_cons_self
        (by rw [Option.mem_toList.1 hx]; simp))
      have hle := (relocs_bounds hrest hr').1
      dsimp only
      omega

/-! ### The program -/

theorem ensureBbMap_join (e : Emitter κ) (bb : BasicBlockId) :
    bb.id.toNat < (e.ensureBbMap bb).bbOffsets.length ∧
      ∀ idx : ℕ, (e.ensureBbMap bb).bbOffsets[idx]?.join = e.bbOffsets[idx]?.join := by
  unfold Emitter.ensureBbMap
  dsimp only
  split_ifs with hle
  · refine ⟨by simp; omega, fun idx => ?_⟩
    dsimp only
    rw [List.getElem?_append]
    split_ifs with hlt
    · rfl
    · rw [List.getElem?_eq_none (not_lt.1 hlt), List.getElem?_replicate]
      split_ifs <;> rfl
  · exact ⟨by omega, fun idx => rfl⟩

/-- Emitting a label. -/
theorem emitLabel_eq (e : Emitter κ) (bb : BasicBlockId) :
    ∃ bbOffsets : List (Option ℕ),
      e.emitLabel (ε := ε) bb = .ok ⟨e.buf, bbOffsets, e.relocations⟩ ∧ ∀ idx : ℕ,
        bbOffsets[idx]?.join =
          if idx = bb.id.toNat then some e.buf.length else e.bbOffsets[idx]?.join := by
  obtain ⟨hlt, hjoin⟩ := ensureBbMap_join e bb
  have hfields : (e.ensureBbMap bb).buf = e.buf ∧
      (e.ensureBbMap bb).relocations = e.relocations := by
    unfold Emitter.ensureBbMap
    dsimp only
    split_ifs <;> exact ⟨rfl, rfl⟩
  refine ⟨(e.ensureBbMap bb).bbOffsets.set bb.id.toNat (some e.buf.length), ?_, fun idx => ?_⟩
  · unfold Emitter.emitLabel Emitter.currentOffset
    dsimp only
    rw [setAt_of_lt hlt, ok_bind, hfields.1, hfields.2]
    rfl
  · rw [List.getElem?_set]
    split_ifs with h1 h2 h2
    · rfl
    · exact absurd h1.symm h2
    · exact absurd h2.symm h1
    · exact hjoin idx

/-- The words of a node that always emits the same ones.  A label does not: it sets an offset. -/
theorem Emission.words_eq (h : Emission emitNode code W B limit) {node : IrNode}
    (hmem : node ∈ code) {ws : List U32} {branch : Option (BasicBlockId × κ)}
    (hws : Emits emitNode limit node ws branch) : W node = ws := by
  refine (h.node node hmem ?_).unique hws
  rintro bb rfl
  obtain ⟨bbOffsets, hok, hjoin⟩ := emitLabel_eq (ε := ε) Emitter.new bb
  have hnew := hws .new (Nat.zero_le _)
  rw [h.label, hok] at hnew
  have hoffsets : bbOffsets = [] := congrArg Emitter.bbOffsets (Except.ok.inj hnew)
  have hset := hjoin bb.id.toNat
  rw [if_pos rfl, hoffsets] at hset
  cases hset

/-- Nodes append their words; the labels among them change the offsets of their own ids only. -/
theorem foldlM_emitNode (h : Emission emitNode code W B limit) (ns : List IrNode)
    (hsub : ∀ node ∈ ns, node ∈ code) (e : Emitter κ)
    (hlen : e.buf.length + 4 * (ns.flatMap W).length ≤ limit) :
    ∃ bbOffsets, ns.foldlM emitNode e = .ok ⟨e.buf ++ ofWords (ns.flatMap W), bbOffsets,
        e.relocations ++ relocs W B e.buf.length ns⟩ ∧
      ∀ t : BasicBlockId, .label t ∉ ns →
        bbOffsets[t.id.toNat]?.join = e.bbOffsets[t.id.toNat]?.join := by
  induction ns generalizing e with
  | nil => exact ⟨e.bbOffsets, by simp [relocs], fun t _ => rfl⟩
  | cons node rest ih =>
    have hmem := hsub node List.mem_cons_self
    have hrest : ∀ node' ∈ rest, node' ∈ code := fun node' h' =>
      hsub node' (List.mem_cons_of_mem _ h')
    rw [List.flatMap_cons, List.length_append] at hlen
    by_cases hlabel : ∃ bb, node = .label bb
    · obtain ⟨bb, rfl⟩ := hlabel
      obtain ⟨hW, hB, -⟩ := h.inner bb hmem
      obtain ⟨bbOffsets, hok, hjoin⟩ := emitLabel_eq (ε := ε) e bb
      obtain ⟨bbOffsets', hfold, hother⟩ := ih hrest ⟨e.buf, bbOffsets, e.relocations⟩
        (by dsimp only; omega)
      refine ⟨bbOffsets', ?_, fun t ht => ?_⟩
      · rw [List.foldlM_cons, h.label, hok, ok_bind, hfold, relocs, hB, List.flatMap_cons, hW]
        rfl
      · have hne : t.id.toNat ≠ bb.id.toNat := fun heq =>
          ht (List.mem_cons.2 (Or.inl (congrArg _ (BasicBlockId.eq_of_toNat_eq heq))))
        have hkeep := hother t fun h' => ht (List.mem_cons_of_mem _ h')
        dsimp only at hkeep
        rw [hkeep, hjoin, if_neg hne]
    · have hnode := h.node node hmem (fun bb heq => hlabel ⟨bb, heq⟩) e (by omega)
      have hbuf : (e.append (W node) (B node)).buf.length =
          e.buf.length + 4 * (W node).length := by
        simp [Emitter.append]
      obtain ⟨bbOffsets, hfold, hother⟩ := ih hrest (e.append (W node) (B node))
        (by rw [hbuf]; omega)
      refine ⟨bbOffsets, ?_, fun t ht => hother t fun h' => ht (List.mem_cons_of_mem _ h')⟩
      rw [List.foldlM_cons, hnode, ok_bind, hfold, hbuf]
      simp only [Emitter.append, relocs, List.flatMap_cons, ofWords_append, List.append_assoc]

/-- The offset of a block is that of its first word, unless a block holds a label with its id; of
several blocks with one id the last one counts. -/
def LabelOffsets (W : IrNode → List U32) (blocks : List IrBasicBlock) (n : ℕ)
    (bbOffsets : List (Option ℕ)) : Prop :=
  ∀ (t : BasicBlockId) (off : ℕ), .label t ∉ blocks.flatMap IrBasicBlock.nodes →
    (bbOffsets[t.id.toNat]?.join = some off ↔ ∃ i b, i < n ∧ blocks[i]? = some b ∧ b.id = t ∧
      (∀ (j : ℕ) (b' : IrBasicBlock), i < j → j < n → blocks[j]? = some b' → b'.id ≠ t) ∧
      off = 4 * (((blocks.take i).flatMap IrBasicBlock.nodes).flatMap W).length)

/-- A new block. -/
theorem LabelOffsets.succ {blocks : List IrBasicBlock} {k : ℕ} {b : IrBasicBlock}
    {bbOffsets bbOffsets' : List (Option ℕ)} (h : LabelOffsets W blocks k bbOffsets)
    (hb : blocks[k]? = some b)
    (hnew : ∀ t : BasicBlockId, .label t ∉ b.nodes → bbOffsets'[t.id.toNat]?.join =
      if t = b.id then some (4 * (((blocks.take k).flatMap IrBasicBlock.nodes).flatMap W).length)
      else bbOffsets[t.id.toNat]?.join) :
    LabelOffsets W blocks (k + 1) bbOffsets' := by
  intro t off hno
  have hnodes : .label t ∉ b.nodes := fun hmem =>
    hno (List.mem_flatMap.2 ⟨b, List.mem_of_getElem? hb, hmem⟩)
  rw [hnew t hnodes]
  split_ifs with ht
  · subst ht
    constructor
    · intro hoff
      exact ⟨k, b, by omega, hb, rfl, fun j b' h1 h2 => by omega, (Option.some.inj hoff).symm⟩
    · rintro ⟨i, b', hi, hb', hid, hlast, rfl⟩
      -- an earlier block with this id is not the last one
      have hik : i = k := by
        by_contra hne
        exact hlast k b (by omega) (by omega) hb rfl
      rw [hik]
  · rw [h t off hno]
    constructor
    · rintro ⟨i, b', hi, hb', hid, hlast, hoff⟩
      refine ⟨i, b', by omega, hb', hid, fun j b'' h1 h2 hj => ?_, hoff⟩
      rcases Nat.lt_succ_iff_lt_or_eq.1 h2 with hlt | rfl
      · exact hlast j b'' h1 hlt hj
      · rw [hb] at hj
        cases hj
        exact fun heq => ht heq.symm
    · rintro ⟨i, b', hi, hb', hid, hlast, hoff⟩
      have hik : i ≠ k := by
        rintro rfl
        rw [hb] at hb'
        cases hb'
        exact ht hid.symm
      exact ⟨i, b', by omega, hb', hid, fun j b'' h1 h2 => hlast j b'' h1 (by omega), hoff⟩

/-- **The emitted program**, before the branches are patched. -/
theorem emitProgram_eq {ir : IrProgram} (h : Emission emitNode ir.code W B limit) :
    ∃ bbOffsets, Emitter.emitProgram emitNode .new ir =
        .ok ⟨ofWords (ir.code.flatMap W), bbOffsets, relocs W B 0 ir.code⟩ ∧
      LabelOffsets W ir.blocks ir.blocks.length bbOffsets := by
  let before : ℕ → List IrNode := fun k => (ir.blocks.take k).flatMap IrBasicBlock.nodes
  let I : ℕ → Emitter κ → Prop := fun k e => e.buf = ofWords ((before k).flatMap W) ∧
    e.relocations = relocs W B 0 (before k) ∧ LabelOffsets W ir.blocks k e.bbOffsets
  have hI0 : I 0 .new := by
    refine ⟨rfl, rfl, fun t off _ => ?_⟩
    constructor
    · intro hoff
      cases hoff
    · rintro ⟨i, b, hi, -⟩
      omega
  have hloop : Meets (Emitter.emitProgram emitNode .new ir) (I ir.blocks.length)
      (fun _ => False) := by
    refine Meets.foldlM I hI0 fun k block e hk hI => ?_
    obtain ⟨hbuf, hrel, hlab⟩ := hI
    have hcode : ir.code = before k ++
        (block.nodes ++ (ir.blocks.drop (k + 1)).flatMap IrBasicBlock.nodes) := by
      obtain ⟨hlt, rfl⟩ := List.getElem?_eq_some_iff.1 hk
      unfold IrProgram.code
      conv_lhs => rw [← List.take_append_drop k ir.blocks, List.drop_eq_getElem_cons hlt]
      rw [List.flatMap_append, List.flatMap_cons]
    have hsucc : before (k + 1) = before k ++ block.nodes := by
      dsimp only [before]
      rw [List.take_add_one, hk, List.flatMap_append]
      simp
    have hbuflen : e.buf.length = 4 * ((before k).flatMap W).length := by
      rw [hbuf, length_ofWords]
    obtain ⟨bbOffsets, hlabel, hjoin⟩ := emitLabel_eq (ε := ε) e block.id
    obtain ⟨bbOffsets', hfold, hother⟩ := foldlM_emitNode h block.nodes
      (fun node hn => by rw [hcode]; simp [hn]) ⟨e.buf, bbOffsets, e.relocations⟩ (by
        have hsize := h.size
        rw [hcode, List.flatMap_append, List.flatMap_append, List.length_append,
          List.length_append] at hsize
        dsimp only
        omega)
    rw [h.label, hlabel, ok_bind, hfold]
    refine Meets.ok ⟨?_, ?_, ?_⟩
    · dsimp only
      rw [hsucc, List.flatMap_append, ofWords_append, hbuf]
    · dsimp only
      rw [hsucc, relocs_append, hrel, hbuflen, Nat.zero_add]
    · refine hlab.succ hk fun t ht => ?_
      have hkeep := hother t ht
      dsimp only at hkeep
      rw [hkeep, hjoin, hbuflen]
      by_cases heq : t = block.id
      · rw [if_pos heq, if_pos (by rw [heq])]
      · rw [if_neg heq, if_neg fun hid => heq (BasicBlockId.eq_of_toNat_eq hid)]
  obtain ⟨⟨buf, bbOffsets, rel⟩, he, hbuf, hrel, hlab⟩ := hloop.exists_ok
  have hall : before ir.blocks.length = ir.code := by
    dsimp only [before]
    rw [List.take_length]
    rfl
  rw [hall] at hbuf hrel
  dsimp only at hbuf hrel hlab
  subst hbuf hrel
  exact ⟨bbOffsets, he, hlab⟩

/-! ### Patching -/

/-- The relocated words of `ws'` are the patched words of `ws`, the others those of `ws`. -/
structure Patched (patch : κ → ℤ → Option (U32 → U32)) (bbOffsets : List (Option ℕ))
    (relocations : List (Relocation κ)) (ws ws' : List U32) : Prop where
  length_eq : ws'.length = ws.length
  other : ∀ i : ℕ, (∀ r ∈ relocations, r.offset ≠ 4 * i) → ws'[i]? = ws[i]?
  patched : ∀ r ∈ relocations, ∀ i : ℕ, r.offset = 4 * i → ∃ (target : ℕ) (f : U32 → U32) (w : U32),
    bbOffsets[r.target.id.toNat]?.join = some target ∧
      patch r.kind ((target : ℤ) - (r.offset : ℤ)) = some f ∧ ws[i]? = some w ∧ ws'[i]? = some (f w)

/-- Patching one more word. -/
theorem Patched.step {patch : κ → ℤ → Option (U32 → U32)} {bbOffsets : List (Option ℕ)}
    {done : List (Relocation κ)} {ws ws' : List U32} (h : Patched patch bbOffsets done ws ws')
    {r : Relocation κ} {i : ℕ} (hi : r.offset = 4 * i)
    (hlt : ∀ r' ∈ done, r'.offset < r.offset) {target : ℕ} {f : U32 → U32} {w : U32}
    (htarget : bbOffsets[r.target.id.toNat]?.join = some target)
    (hf : patch r.kind ((target : ℤ) - (r.offset : ℤ)) = some f) (hw : ws'[i]? = some w) :
    Patched patch bbOffsets (done ++ [r]) ws (ws'.set i (f w)) := by
  have hwi : ws[i]? = some w := by
    rw [← hw, h.other i fun r' hr' => by have := hlt r' hr'; omega]
  have hilt := (List.getElem?_eq_some_iff.1 hw).1
  refine ⟨by rw [List.length_set, h.length_eq], fun j hj => ?_, fun r' hr' j hj => ?_⟩
  · have hne : i ≠ j := fun heq => hj r (by simp) (by rw [hi, heq])
    rw [List.getElem?_set_ne hne]
    exact h.other j fun r' hr' => hj r' (by simp [hr'])
  · rcases List.mem_append.1 hr' with hmem | hmem
    · have hne : i ≠ j := by
        have := hlt r' hmem
        omega
      rw [List.getElem?_set_ne hne]
      exact h.patched r' hmem j hj
    · rw [List.mem_singleton.1 hmem] at hj ⊢
      obtain rfl : i = j := by omega
      exact ⟨target, f, w, htarget, hf, hwi, List.getElem?_set_self hilt⟩

/-- The relocation names no block, or its displacement is out of range. -/
def Unpatchable (patch : κ → ℤ → Option (U32 → U32)) (bbOffsets : List (Option ℕ))
    (r : Relocation κ) : Prop :=
  ∀ target : ℕ, bbOffsets[r.target.id.toNat]?.join = some target →
    patch r.kind ((target : ℤ) - (r.offset : ℤ)) = none

/-- **The patched program.**  Patching fails only at a relocation that cannot be patched. -/
theorem patchRelocations_meets {outOfRange : BasicBlockId → ε} {patch : κ → ℤ → Option (U32 → U32)}
    {bbOffsets : List (Option ℕ)} {relocations : List (Relocation κ)} {ws : List U32}
    (hlen : 4 * ws.length < 2 ^ 63)
    (hbb : ∀ r ∈ relocations, ∀ off : ℕ, bbOffsets[r.target.id.toNat]?.join = some off →
      off ≤ 4 * ws.length)
    (hrel : ∀ r ∈ relocations, ∃ i < ws.length, r.offset = 4 * i)
    (hpair : relocations.Pairwise fun r r' => r.offset < r'.offset) :
    Meets (Emitter.patchRelocations outOfRange patch ⟨ofWords ws, bbOffsets, relocations⟩)
      (fun buf => ∃ ws', buf = ofWords ws' ∧ Patched patch bbOffsets relocations ws ws')
      (fun f => ∃ r ∈ relocations, f = .err (outOfRange r.target) ∧
        Unpatchable patch bbOffsets r) := by
  let I : ℕ → List U8 → Prop := fun k buf =>
    ∃ ws', buf = ofWords ws' ∧ Patched patch bbOffsets (relocations.take k) ws ws'
  have hI0 : I 0 (ofWords ws) := ⟨ws, rfl, rfl, fun i _ => rfl, fun r hr => by simp at hr⟩
  have hloop : Meets (relocations.foldlM (Emitter.patchRelocation outOfRange patch bbOffsets)
      (ofWords ws)) (I relocations.length) (fun f => ∃ r ∈ relocations,
        f = .err (outOfRange r.target) ∧ Unpatchable patch bbOffsets r) := by
    refine Meets.foldlM I hI0 fun k r buf hk hI => ?_
    obtain ⟨ws', rfl, hpatched⟩ := hI
    have hmem := List.mem_of_getElem? hk
    obtain ⟨i, hi, hoff⟩ := hrel r hmem
    have hilt : i < ws'.length := by
      rw [hpatched.length_eq]
      exact hi
    have hlt : ∀ r' ∈ relocations.take k, r'.offset < r.offset := by
      intro r' hr'
      obtain ⟨j, hj, rfl⟩ := List.mem_take_iff_getElem.1 hr'
      obtain ⟨hklt, rfl⟩ := List.getElem?_eq_some_iff.1 hk
      exact List.pairwise_iff_getElem.1 hpair j k _ hklt (by omega)
    have hmissing : bbOffsets[r.target.id.toNat]?.join = none → Unpatchable patch bbOffsets r :=
      fun hnone target h => by
        rw [hnone] at h
        cases h
    unfold Emitter.patchRelocation
    refine (Meets.okOr (Q := fun target => bbOffsets[r.target.id.toNat]?.join = some target)
      (fun target h => h) fun hnone => ⟨r, hmem, rfl, hmissing hnone⟩).bind fun target htarget => ?_
    have htle := hbb r hmem target htarget
    rw [toIsize_of_lt (by omega), ok_bind, toIsize_of_lt (by omega), ok_bind,
      isizeSub_of_range (by omega), ok_bind]
    have hrange : patch r.kind ((target : ℤ) - (r.offset : ℤ)) = none →
        Unpatchable patch bbOffsets r := fun hnone target' h => by
      rw [htarget] at h
      cases h
      exact hnone
    refine (Meets.okOr (Q := fun f => patch r.kind ((target : ℤ) - (r.offset : ℤ)) = some f)
      (fun f h => h) fun hnone => ⟨r, hmem, rfl, hrange hnone⟩).bind fun f hf => ?_
    have hw := List.getElem?_eq_getElem hilt
    rw [hoff, readU32_ofWords hw, ok_bind, writeU32_ofWords hilt]
    refine Meets.ok ⟨_, rfl, ?_⟩
    rw [List.take_add_one, hk]
    exact hpatched.step hoff hlt htarget hf hw
  dsimp only [I] at hloop
  rw [List.take_length] at hloop
  exact hloop

/-- Words and branches can be chosen once every node has some, and none is a label. -/
theorem exists_emission (ratio : ℕ) (hlabel : ∀ e bb, emitNode e (.label bb) = e.emitLabel bb)
    (hlimit : 4 * (ratio * code.length) ≤ limit) (hno : ∀ bb, .label bb ∉ code)
    (hnode : ∀ node ∈ code, ∃ ws, Emits emitNode limit node ws (B node) ∧ ws.length ≤ ratio ∧
      (B node ≠ none → ws ≠ [])) :
    ∃ W, Emission emitNode code W B limit ∧ (code.flatMap W).length ≤ ratio * code.length := by
  have hex : ∀ node, ∃ ws : List U32, node ∈ code →
      Emits emitNode limit node ws (B node) ∧ ws.length ≤ ratio ∧ (B node ≠ none → ws ≠ []) := by
    intro node
    by_cases hmem : node ∈ code
    · obtain ⟨ws, hws⟩ := hnode node hmem
      exact ⟨ws, fun _ => hws⟩
    · exact ⟨[], fun h => absurd h hmem⟩
  choose W hW using hex
  have hsize : ∀ ns : List IrNode, (∀ node ∈ ns, node ∈ code) →
      (ns.flatMap W).length ≤ ratio * ns.length := by
    intro ns hsub
    induction ns with
    | nil => exact Nat.zero_le _
    | cons node rest ih =>
      have h1 := (hW node (hsub node List.mem_cons_self)).2.1
      have h2 := ih fun node' h => hsub node' (List.mem_cons_of_mem _ h)
      rw [List.flatMap_cons, List.length_append, List.length_cons, Nat.mul_succ]
      omega
  have hall := hsize code fun _ h => h
  exact ⟨W, ⟨hlabel, fun node h _ => (hW node h).1, fun bb h => absurd h (hno bb),
    fun node h => (hW node h).2.2, by omega⟩, hall⟩

/-- The words before a block are among all words. -/
theorem length_flatMap_take_le (W : IrNode → List U32) (ir : IrProgram) (i : ℕ) :
    (((ir.blocks.take i).flatMap IrBasicBlock.nodes).flatMap W).length ≤
      (ir.code.flatMap W).length := by
  unfold IrProgram.code
  conv_rhs => rw [← List.take_append_drop i ir.blocks]
  rw [List.flatMap_append, List.flatMap_append, List.length_append]
  omega

/-- The target of a relocation is no label inside a block. -/
theorem Emission.not_mem_of_relocs (h : Emission emitNode code W B limit) {base : ℕ}
    {r : Relocation κ} (hr : r ∈ relocs W B base code) : .label r.target ∉ code := by
  obtain ⟨j, node, t, k, hj, hB, rfl⟩ := mem_relocs.1 hr
  exact fun hmem => (h.inner t hmem).2.2 node (List.mem_of_getElem? hj) k hB

/-- **Emission and patching.** -/
theorem emission_meets {ir : IrProgram} (outOfRange : BasicBlockId → ε)
    (patch : κ → ℤ → Option (U32 → U32)) (h : Emission emitNode ir.code W B limit)
    (hsize : 4 * (ir.code.flatMap W).length < 2 ^ 63) :
    ∃ bbOffsets, LabelOffsets W ir.blocks ir.blocks.length bbOffsets ∧
      Emitter.emitProgram emitNode .new ir =
        .ok ⟨ofWords (ir.code.flatMap W), bbOffsets, relocs W B 0 ir.code⟩ ∧
      Meets (do
          let e ← Emitter.emitProgram emitNode .new ir
          e.patchRelocations outOfRange patch)
        (fun buf => ∃ ws', buf = ofWords ws' ∧
          Patched patch bbOffsets (relocs W B 0 ir.code) (ir.code.flatMap W) ws')
        (fun f => ∃ r ∈ relocs W B 0 ir.code, f = .err (outOfRange r.target) ∧
          Unpatchable patch bbOffsets r) := by
  obtain ⟨bbOffsets, hemit, hlabels⟩ := emitProgram_eq h
  refine ⟨bbOffsets, hlabels, hemit, ?_⟩
  rw [hemit, ok_bind]
  refine patchRelocations_meets hsize (fun r hr off hoff => ?_) (fun r hr => ?_)
    (relocs_pairwise h.ne_nil 0)
  · obtain ⟨i, b, -, -, -, -, rfl⟩ := (hlabels r.target off (h.not_mem_of_relocs hr)).1 hoff
    have := length_flatMap_take_le W ir i
    omega
  · obtain ⟨-, hle, i, hi⟩ := relocs_bounds h.ne_nil hr
    exact ⟨i, by omega, by omega⟩

end NVMirror
