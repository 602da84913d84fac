import NVMirror.JitIr.Image

/-!
# Programs that were emitted

What holds of every program whose emission and patching succeed, whatever its nodes are: they may
hold labels of their own, and several labels may name one block.

* `IrProgram.listing`: all nodes in order, with the label of each block before its nodes.
* `foldlM_extends`: the nodes append words, and relocations in these words.
* `foldlM_length_le`: the size of the buffer.
* `exists_label`: the offset of a block is that of the last label with its id.
* `patched_of_ok`: the patched code, without a bound on its size.
* `branch_of_ok`: the words of a branch in the finished code.
-/

namespace NVMirror

open Rust

variable {κ ε : Type}

/-- All nodes, every block after its label. -/
def IrProgram.listing (ir : IrProgram) : List IrNode :=
  ir.blocks.flatMap fun b => .label b.id :: b.nodes

theorem emitProgram_eq_foldlM (emitNode : Emitter κ → IrNode → Rust ε (Emitter κ)) (e : Emitter κ)
    (ir : IrProgram) : Emitter.emitProgram emitNode e ir = ir.listing.foldlM emitNode e := by
  unfold Emitter.emitProgram IrProgram.listing
  induction ir.blocks generalizing e with
  | nil => rfl
  | cons b rest ih =>
    rw [List.foldlM_cons, List.flatMap_cons, List.foldlM_append, List.foldlM_cons]
    congr 1
    funext e'
    exact ih e'

/-! ### What emission appends -/

/-- The second emitter comes from the first one by appending words, with relocations in them. -/
structure Extends (e e' : Emitter κ) (ws : List U32) (rel : List (Relocation κ)) : Prop where
  buf : e'.buf = e.buf ++ ofWords ws
  relocations : e'.relocations = e.relocations ++ rel
  bounds : ∀ r ∈ rel, ∃ i < ws.length, r.offset = e.buf.length + 4 * i
  pairwise : rel.Pairwise fun r r' => r.offset < r'.offset

namespace Extends

variable {e e' e'' : Emitter κ} {ws ws' : List U32} {rel rel' : List (Relocation κ)}

theorem refl (e : Emitter κ) : Extends e e [] [] :=
  ⟨by simp, by simp, by simp, List.Pairwise.nil⟩

theorem length_buf (h : Extends e e' ws rel) : e'.buf.length = e.buf.length + 4 * ws.length := by
  rw [h.buf, List.length_append, length_ofWords]

theorem trans (h : Extends e e' ws rel) (h' : Extends e' e'' ws' rel') :
    Extends e e'' (ws ++ ws') (rel ++ rel') := by
  have hlen := h.length_buf
  refine ⟨?_, ?_, fun r hr => ?_, ?_⟩
  · rw [h'.buf, h.buf, ofWords_append, List.append_assoc]
  · rw [h'.relocations, h.relocations, List.append_assoc]
  · rw [List.length_append]
    rcases List.mem_append.1 hr with hr | hr
    · obtain ⟨i, hi, hoff⟩ := h.bounds r hr
      exact ⟨i, by omega, hoff⟩
    · obtain ⟨i, hi, hoff⟩ := h'.bounds r hr
      exact ⟨ws.length + i, by omega, by omega⟩
  · refine List.pairwise_append.2 ⟨h.pairwise, h'.pairwise, fun r hr r' hr' => ?_⟩
    obtain ⟨i, hi, hoff⟩ := h.bounds r hr
    obtain ⟨i', hi', hoff'⟩ := h'.bounds r' hr'
    omega

/-- The words of a node. -/
theorem append (e : Emitter κ) {ws : List U32} {branch : Option (BasicBlockId × κ)}
    (h : branch ≠ none → ws ≠ []) : Extends e (e.append ws branch) ws
      (branch.toList.map fun x => ⟨e.buf.length + 4 * (ws.length - 1), x.1, x.2⟩) := by
  refine ⟨rfl, rfl, fun r hr => ?_, ?_⟩
  · obtain ⟨⟨t, k⟩, hx, rfl⟩ := List.mem_map.1 hr
    have hpos := List.length_pos_iff.2 (h (by rw [Option.mem_toList.1 hx]; simp))
    exact ⟨ws.length - 1, by omega, rfl⟩
  · cases branch <;> simp

end Extends

/-- Nodes that can be emitted are labels, or append words with at most one relocation. -/
def Appends (emitNode : Emitter κ → IrNode → Rust ε (Emitter κ)) : Prop :=
  ∀ {e e' : Emitter κ} {node : IrNode}, emitNode e node = .ok e' →
    (∃ bb, node = .label bb ∧ e.emitLabel (ε := ε) bb = .ok e') ∨
      (∀ bb, node ≠ .label bb) ∧
        ∃ ws branch, e' = e.append ws branch ∧ (branch ≠ none → ws ≠ [])

variable {emitNode : Emitter κ → IrNode → Rust ε (Emitter κ)} {ns : List IrNode} {e e' : Emitter κ}

theorem foldlM_extends (H : Appends emitNode) (h : ns.foldlM emitNode e = .ok e') :
    ∃ ws rel, Extends e e' ws rel := by
  induction ns generalizing e with
  | nil =>
    cases h
    exact ⟨[], [], Extends.refl _⟩
  | cons node rest ih =>
    rw [List.foldlM_cons] at h
    obtain ⟨e₁, hnode, hrest⟩ := bind_eq_ok.1 h
    obtain ⟨ws', rel', h'⟩ := ih hrest
    have hone : ∃ ws rel, Extends e e₁ ws rel := by
      rcases H hnode with ⟨bb, rfl, hlabel⟩ | ⟨-, ws, branch, rfl, hne⟩
      · obtain ⟨bbOffsets, heq, -⟩ := emitLabel_eq (ε := ε) e bb
        rw [heq] at hlabel
        cases hlabel
        exact ⟨[], [], by simp, by simp, by simp, List.Pairwise.nil⟩
      · exact ⟨ws, _, Extends.append e hne⟩
    obtain ⟨ws, rel, hone⟩ := hone
    exact ⟨_, _, hone.trans h'⟩

/-- Most words of a node; a label has none. -/
def wordBound (k : ℕ) : IrNode → ℕ
  | .label _ => 0
  | _ => k

theorem wordBound_le (k : ℕ) (node : IrNode) : wordBound k node ≤ k := by
  cases node <;> simp [wordBound]

/-- Nodes that can be emitted append at most `k` words, labels none. -/
def AppendsAtMost (k : ℕ) (emitNode : Emitter κ → IrNode → Rust ε (Emitter κ)) : Prop :=
  ∀ {e e' : Emitter κ} {node : IrNode}, emitNode e node = .ok e' →
    e'.buf.length ≤ e.buf.length + 4 * wordBound k node

/-- The words of a node of a program that is emitted. -/
theorem Emission.length_le {code : List IrNode} {W : IrNode → List U32}
    {B : IrNode → Option (BasicBlockId × κ)} {limit k : ℕ} (h : Emission emitNode code W B limit)
    (H : AppendsAtMost k emitNode) {node : IrNode} (hmem : node ∈ code) : (W node).length ≤ k := by
  by_cases hlabel : ∃ bb, node = .label bb
  · obtain ⟨bb, rfl⟩ := hlabel
    rw [(h.inner bb hmem).1]
    exact Nat.zero_le k
  have hlen := H (h.node node hmem (fun bb heq => hlabel ⟨bb, heq⟩) .new (Nat.zero_le limit))
  have hbound := wordBound_le k node
  have hnew : (Emitter.append .new (W node) (B node)).buf.length = 4 * (W node).length := by
    rw [Emitter.append, List.length_append, length_ofWords]
    exact Nat.zero_add _
  rw [hnew] at hlen
  have hzero : (Emitter.new : Emitter κ).buf.length = 0 := rfl
  omega

theorem foldlM_length_le {k : ℕ} (H : AppendsAtMost k emitNode)
    (h : ns.foldlM emitNode e = .ok e') :
    e'.buf.length ≤ e.buf.length + 4 * (ns.map (wordBound k)).sum := by
  induction ns generalizing e with
  | nil =>
    cases h
    exact Nat.le_add_right _ _
  | cons node rest ih =>
    rw [List.foldlM_cons] at h
    obtain ⟨e₁, hnode, hrest⟩ := bind_eq_ok.1 h
    have h1 := H hnode
    have h2 := ih hrest
    rw [List.map_cons, List.sum_cons]
    omega

/-- The words of a program: its blocks add labels only. -/
theorem sum_wordBound_listing (k : ℕ) (ir : IrProgram) :
    (ir.listing.map (wordBound k)).sum ≤ k * ir.code.length := by
  have hblock : ∀ nodes : List IrNode, (nodes.map (wordBound k)).sum ≤ k * nodes.length := by
    intro nodes
    induction nodes with
    | nil => exact Nat.zero_le _
    | cons node rest ih =>
      have hle := wordBound_le k node
      rw [List.map_cons, List.sum_cons, List.length_cons, Nat.mul_succ]
      omega
  unfold IrProgram.listing IrProgram.code
  induction ir.blocks with
  | nil => exact Nat.zero_le _
  | cons b rest ih =>
    have hle := hblock b.nodes
    rw [List.flatMap_cons, List.flatMap_cons, List.map_append, List.sum_append, List.map_cons,
      List.sum_cons, List.length_append, Nat.mul_add, wordBound, Nat.zero_add]
    omega

/-- The offset of a node, where the nodes before it were emitted. -/
theorem nodeOffset_of_ok {j : ℕ} (h : (ns.take j).foldlM emitNode .new = .ok e) :
    nodeOffset emitNode ns j = e.buf.length := by
  unfold nodeOffset
  rw [h]
  rfl

theorem nodeOffset_dvd (H : Appends emitNode) (ns : List IrNode) (j : ℕ) :
    ∃ q, nodeOffset emitNode ns j = 4 * q := by
  cases h : (ns.take j).foldlM emitNode .new with
  | ok e =>
    obtain ⟨ws, rel, hext⟩ := foldlM_extends H h
    exact ⟨ws.length, by rw [nodeOffset_of_ok h, hext.length_buf]; simp [Emitter.new]⟩
  | error f =>
    refine ⟨0, ?_⟩
    unfold nodeOffset
    rw [h]

/-- **The offset of a block** is that of the last label with its id. -/
theorem exists_label (H : Appends emitNode) (h : ns.foldlM emitNode .new = .ok e)
    {t : BasicBlockId} {off : ℕ} (ht : e.bbOffsets[t.id.toNat]?.join = some off) :
    ∃ i, ns[i]? = some (.label t) ∧ (∀ i', i < i' → ns[i']? ≠ some (.label t)) ∧
      nodeOffset emitNode ns i = off := by
  induction ns using List.reverseRecOn generalizing e off with
  | nil =>
    cases h
    cases ht
  | append_singleton ns node ih =>
    rw [List.foldlM_append] at h
    obtain ⟨e₁, hns, hnode⟩ := bind_eq_ok.1 h
    rw [List.foldlM_cons] at hnode
    obtain ⟨e₂, hnode, hnil⟩ := bind_eq_ok.1 hnode
    cases hnil
    -- the offset was known before the last node, which is another one
    have hbefore : node ≠ .label t → e₁.bbOffsets[t.id.toNat]?.join = some off →
        ∃ i, (ns ++ [node])[i]? = some (.label t) ∧
          (∀ i', i < i' → (ns ++ [node])[i']? ≠ some (.label t)) ∧
          nodeOffset emitNode (ns ++ [node]) i = off := by
      intro hne hjoin
      obtain ⟨i, hi, hlast, hoff⟩ := ih hns hjoin
      have hlt := (List.getElem?_eq_some_iff.1 hi).1
      refine ⟨i, by rw [List.getElem?_append_left hlt, hi], fun i' hi' heq => ?_, ?_⟩
      · rcases lt_or_ge i' ns.length with hlt' | hge
        · rw [List.getElem?_append_left hlt'] at heq
          exact hlast i' hi' heq
        · rw [List.getElem?_append_right hge] at heq
          exact hne (List.mem_singleton.1 (List.mem_of_getElem? heq)).symm
      · rw [← hoff, nodeOffset, nodeOffset, List.take_append_of_le_length hlt.le]
    rcases H hnode with ⟨bb, rfl, hlabel⟩ | ⟨hno, ws, branch, rfl, -⟩
    · obtain ⟨bbOffsets, heq, hjoin⟩ := emitLabel_eq (ε := ε) e₁ bb
      rw [heq] at hlabel
      cases hlabel
      dsimp only at ht
      rw [hjoin] at ht
      by_cases hid : t.id.toNat = bb.id.toNat
      · obtain rfl : t = bb := BasicBlockId.eq_of_toNat_eq hid
        rw [if_pos rfl] at ht
        refine ⟨ns.length, by simp, fun i' hi' => ?_, ?_⟩
        · rw [List.getElem?_eq_none (by rw [List.length_append]; exact hi')]
          simp
        · rw [nodeOffset_of_ok (by rwa [List.take_left' rfl])]
          exact Option.some.inj ht
      · rw [if_neg hid] at ht
        refine hbefore (fun heq => hid ?_) ht
        cases heq
        rfl
    · exact hbefore (hno t) ht

/-! ### The finished code -/

/-- **The patched code.** -/
theorem patched_of_ok {outOfRange : BasicBlockId → ε} {patch : κ → ℤ → Option (U32 → U32)}
    {bbOffsets : List (Option ℕ)} {relocations : List (Relocation κ)} {ws : List U32}
    {buf : List U8} (hrel : ∀ r ∈ relocations, ∃ i < ws.length, r.offset = 4 * i)
    (hpair : relocations.Pairwise fun r r' => r.offset < r'.offset)
    (h : Emitter.patchRelocations outOfRange patch ⟨ofWords ws, bbOffsets, relocations⟩ =
      .ok buf) : ∃ ws', buf = ofWords ws' ∧ Patched patch bbOffsets relocations ws ws' := by
  unfold Emitter.patchRelocations at h
  dsimp only at h
  induction relocations using List.reverseRecOn generalizing buf with
  | nil =>
    cases h
    exact ⟨ws, rfl, rfl, fun i _ => rfl, fun r hr => by cases hr⟩
  | append_singleton done r ih =>
    rw [List.foldlM_append] at h
    obtain ⟨buf₁, hdone, hlast⟩ := bind_eq_ok.1 h
    rw [List.foldlM_cons] at hlast
    obtain ⟨buf₂, hlast, hnil⟩ := bind_eq_ok.1 hlast
    cases hnil
    obtain ⟨hpair, -, hbefore⟩ := List.pairwise_append.1 hpair
    obtain ⟨ws₁, rfl, hpatched⟩ := ih (fun r' hr' => hrel r' (List.mem_append_left _ hr')) hpair
      hdone
    obtain ⟨i, hi, hoff⟩ := hrel r (by simp)
    have hi₁ : i < ws₁.length := by rwa [hpatched.length_eq]
    have hw := List.getElem?_eq_getElem hi₁
    unfold Emitter.patchRelocation at hlast
    obtain ⟨target, htarget, hlast⟩ := bind_eq_ok.1 hlast
    obtain ⟨target', htarget', hlast⟩ := bind_eq_ok.1 hlast
    obtain ⟨offset, hoffset, hlast⟩ := bind_eq_ok.1 hlast
    obtain ⟨displacement, hdisp, hlast⟩ := bind_eq_ok.1 hlast
    obtain ⟨f, hf, hwrite⟩ := bind_eq_ok.1 hlast
    obtain ⟨-, rfl⟩ := toIsize_eq_ok.1 htarget'
    obtain ⟨-, rfl⟩ := toIsize_eq_ok.1 hoffset
    obtain ⟨-, rfl⟩ := isizeSub_eq_ok.1 hdisp
    rw [hoff, readU32_ofWords hw, ok_bind, writeU32_ofWords hi₁] at hwrite
    cases hwrite
    exact ⟨_, rfl, hpatched.step hoff (fun r' hr' => hbefore r' hr' r (by simp))
      (okOr_eq_ok.1 htarget) (okOr_eq_ok.1 hf) hw⟩

/-- A branch in emitted code: its words stand at word `p`, with a relocation on the last one and
none on the others. -/
structure Placed (emitNode : Emitter κ → IrNode → Rust ε (Emitter κ)) (ns : List IrNode) (j : ℕ)
    (pre : List U32) (w : U32) (t : BasicBlockId) (k : κ) (p : ℕ) (ws : List U32)
    (rel : List (Relocation κ)) : Prop where
  offset : nodeOffset emitNode ns j = 4 * p
  next : nodeOffset emitNode ns (j + 1) = 4 * (p + (pre.length + 1))
  word : ∀ m < pre.length + 1, ws[p + m]? = (pre ++ [w])[m]?
  mem : ⟨4 * (p + pre.length), t, k⟩ ∈ rel
  other : ∀ r ∈ rel, ∀ m < pre.length, r.offset ≠ 4 * (p + m)

section

variable {node : IrNode} {j : ℕ} {pre : List U32} {w : U32} {t : BasicBlockId} {k : κ}

theorem placed_of_ok (H : Appends emitNode) (hall : ns.foldlM emitNode .new = .ok e)
    (hj : ns[j]? = some node)
    (hnode : ∀ e, emitNode e node = .ok (e.append (pre ++ [w]) (some (t, k)))) :
    ∃ p ws rel, Extends .new e ws rel ∧ Placed emitNode ns j pre w t k p ws rel := by
  obtain ⟨hlt, hget⟩ := List.getElem?_eq_some_iff.1 hj
  have hsplit : ns = ns.take j ++ node :: ns.drop (j + 1) := by
    conv_lhs => rw [← List.take_append_drop j ns, List.drop_eq_getElem_cons hlt, hget]
  -- the nodes before, the branch, the nodes after it
  rw [hsplit, List.foldlM_append] at hall
  obtain ⟨e₁, hbefore, hall⟩ := bind_eq_ok.1 hall
  rw [List.foldlM_cons, hnode, ok_bind] at hall
  obtain ⟨ws₁, rel₁, hext₁⟩ := foldlM_extends H hbefore
  obtain ⟨ws₃, rel₃, hext₃⟩ := foldlM_extends H hall
  have hlen₁ : e₁.buf.length = 4 * ws₁.length := by
    rw [hext₁.length_buf]
    exact Nat.zero_add _
  have hlen : (pre ++ [w]).length = pre.length + 1 := by
    rw [List.length_append, List.length_singleton]
  have hoff : e₁.buf.length + 4 * ((pre ++ [w]).length - 1) = 4 * (ws₁.length + pre.length) := by
    rw [hlen₁, hlen]
    omega
  have hext₂ : Extends e₁ (e₁.append (pre ++ [w]) (some (t, k))) (pre ++ [w])
      [⟨4 * (ws₁.length + pre.length), t, k⟩] := by
    have happ := @Extends.append _ e₁ (pre ++ [w]) (some (t, k)) (by simp)
    rw [← hoff]
    exact happ
  have hlen₂ := hext₂.length_buf
  refine ⟨ws₁.length, _, _, (hext₁.trans hext₂).trans hext₃, ?_, ?_, ?_, by simp, ?_⟩
  · exact (nodeOffset_of_ok hbefore).trans hlen₁
  · have htake : ns.take (j + 1) = ns.take j ++ [node] := by
      rw [List.take_add_one, hj]
      rfl
    have hnext : (ns.take (j + 1)).foldlM emitNode .new =
        .ok (e₁.append (pre ++ [w]) (some (t, k))) := by
      rw [htake, List.foldlM_append, hbefore, ok_bind, List.foldlM_cons, hnode]
      rfl
    rw [nodeOffset_of_ok hnext, hlen₂, hlen₁, hlen]
    omega
  · intro m hm
    rw [List.append_assoc, List.getElem?_append_right (Nat.le_add_right _ _),
      Nat.add_sub_cancel_left, List.getElem?_append_left (by omega)]
  · intro r hr m hm
    rcases List.mem_append.1 hr with hr | hr
    · rcases List.mem_append.1 hr with hr | hr
      · obtain ⟨i, hi, hoff⟩ := hext₁.bounds r hr
        have hnew : (Emitter.new : Emitter κ).buf.length = 0 := rfl
        omega
      · rw [List.mem_singleton.1 hr]
        dsimp only
        omega
    · obtain ⟨i, hi, hoff⟩ := hext₃.bounds r hr
      omega

/-- Patching changes the last word of the branch only. -/
theorem Placed.patched {p : ℕ} {ws ws' : List U32} {rel : List (Relocation κ)}
    {patch : κ → ℤ → Option (U32 → U32)} {bbOffsets : List (Option ℕ)} {w' : U32}
    (h : Placed emitNode ns j pre w t k p ws rel) (hpatched : Patched patch bbOffsets rel ws ws')
    (hlast : ws'[p + pre.length]? = some w') {m : ℕ} {x : U32} (hm : (pre ++ [w'])[m]? = some x) :
    ws'[p + m]? = some x := by
  have hlt := (List.getElem?_eq_some_iff.1 hm).1
  rw [List.length_append, List.length_singleton] at hlt
  by_cases hend : m = pre.length
  · subst hend
    rw [List.getElem?_concat_length] at hm
    rw [hlast, ← hm]
  · have hm' : m < pre.length := by omega
    have hpre : (pre ++ [w'])[m]? = (pre ++ [w])[m]? := by
      rw [List.getElem?_append_left hm', List.getElem?_append_left hm']
    rw [hpatched.other _ fun r hr => h.other r hr m hm', h.word m hlt, ← hpre, hm]

end

/-- **A branch in the finished code.**  Its words stand at its offset, the last one patched with the
distance to the last label of its target. -/
theorem branch_of_ok (H : Appends emitNode) {ir : IrProgram} {outOfRange : BasicBlockId → ε}
    {patch : κ → ℤ → Option (U32 → U32)} {buf : List U8}
    (hemit : Emitter.emitProgram emitNode .new ir = .ok e)
    (hpatch : e.patchRelocations outOfRange patch = .ok buf) {j : ℕ} {node : IrNode}
    (hj : ir.listing[j]? = some node) {pre : List U32} {w : U32} {t : BasicBlockId} {k : κ}
    (hnode : ∀ e, emitNode e node = .ok (e.append (pre ++ [w]) (some (t, k)))) :
    ∃ (i p q : ℕ) (f : U32 → U32), ir.listing[i]? = some (.label t) ∧
      (∀ i', i < i' → ir.listing[i']? ≠ some (.label t)) ∧
      nodeOffset emitNode ir.listing i = 4 * q ∧ nodeOffset emitNode ir.listing j = 4 * p ∧
      nodeOffset emitNode ir.listing (j + 1) = 4 * (p + (pre.length + 1)) ∧
      patch k (4 * ((q : ℤ) - (p + pre.length : ℕ))) = some f ∧
      ∀ (m : ℕ) (x : U32), (pre ++ [f w])[m]? = some x → fetchU32 buf (4 * p + 4 * m) = some x := by
  rw [emitProgram_eq_foldlM] at hemit
  obtain ⟨p, ws, rel, hext, hplaced⟩ := placed_of_ok H hemit hj hnode
  have hoffset : ∀ r ∈ rel, ∃ i < ws.length, r.offset = 4 * i := by
    intro r hr
    obtain ⟨i, hi, hoff⟩ := hext.bounds r hr
    exact ⟨i, hi, hoff.trans (Nat.zero_add _)⟩
  have he : e = ⟨ofWords ws, e.bbOffsets, rel⟩ :=
    congrArg₂ (fun buf rel => Emitter.mk buf e.bbOffsets rel) hext.buf hext.relocations
  rw [he] at hpatch
  obtain ⟨ws', rfl, hpatched⟩ := patched_of_ok hoffset hext.pairwise hpatch
  obtain ⟨target, f, w', htarget, hf, hw', hfw⟩ := hpatched.patched _ hplaced.mem _ rfl
  obtain ⟨i, hi, hlast, hitarget⟩ := exists_label H hemit htarget
  obtain ⟨q, hq⟩ := nodeOffset_dvd H ir.listing i
  rw [hplaced.word _ (Nat.lt_succ_self _), List.getElem?_concat_length] at hw'
  cases hw'
  refine ⟨i, p, q, f, hi, hlast, hq, hplaced.offset, hplaced.next, ?_, fun m x hm => ?_⟩
  · rw [← hf, ← hitarget, hq]
    congr 1
    push_cast
    ring
  · have hpos : (4 * (p : ℤ) + 4 * (m : ℤ)) = 4 * ((p + m : ℕ) : ℤ) := by
      push_cast
      ring
    rw [hpos]
    exact fetchU32_ofWords (hplaced.patched hpatched hfw hm)

end NVMirror
