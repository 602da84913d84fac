import NVMirror.JitEngine.Atomics
import NVMirror.JitRiscv.Constants

/-!
# Atomic operations on RISC-V

* `RunsTo ws c c'`: without interference, the words `ws` take `c` to `c'`; only to it
  (`RunsTo.unique`).  `Traps ws c`: they come to an exception, and then lead nowhere
  (`Traps.not_runsTo`).
* `steps_leave`, `steps_store`, `traps_again`: a turn of the loop of compare-and-exchange.  The
  load-reserved overwrites the register with the address, so the store-conditional goes to the
  address that was loaded, and the next turn starts at address 1, which is not aligned.
* `atomicMem`: what the words of an atomic operation leave in memory, if they come to an end
  (`runsTo_atomic`, `traps_atomic`).
-/

namespace NVMirror.Riscv

open Rust Bytes Fields

/-! ### Runs without interference -/

/-- The words take the first state to the second one, if no store-conditional fails for no reason,
whatever the reservation sets are. -/
def RunsTo (ws : List U32) (c c' : Cpu) : Prop :=
  ∀ (env : Env) {code : List U8} {pc : ℤ}, env.spurious = false → CodeAt code pc ws →
    ∃ n, steps (step env code) ⟨c, pc⟩ n = .ok ⟨c', pc + 4 * ws.length⟩

/-- The words come to an exception. -/
def Traps (ws : List U32) (c : Cpu) : Prop :=
  ∀ (code : List U8) (pc : ℤ), CodeAt code pc ws → ∃ n, steps (step .idle code) ⟨c, pc⟩ n = panic

/-- The machine stops behind the words, when there is nothing else. -/
theorem step_end (env : Env) (ws : List U32) (c : Cpu) :
    step env (ofWords ws) ⟨c, 0 + 4 * ws.length⟩ = .ok ⟨c, 0 + 4 * ws.length⟩ := by
  unfold step
  rw [zero_add, fetchU32_end]
  rfl

namespace RunsTo

variable {ws ws' : List U32} {c c' c'' : Cpu}

theorem line (h : Line ws c c') : RunsTo ws c c' :=
  fun env _ _ _ hcode => ⟨_, h.steps env hcode⟩

/-- One word that goes on to the next one. -/
theorem word {w : U32} {i : Instr} (hdecode : decode w = some i)
    (htraps : ∀ env, i.traps env c = false) (hexec : ∀ env pc, i.exec env pc c = c')
    (hdisp : i.displacement c = 4) : RunsTo [w] c c' := by
  intro env code pc _ hcode
  refine ⟨1, ?_⟩
  rw [steps_one, step_of_fetch env hcode.head hdecode (htraps env), hexec, hdisp]
  rfl

theorem append (h : RunsTo ws c c') (h' : RunsTo ws' c' c'') : RunsTo (ws ++ ws') c c'' := by
  intro env code pc henv hcode
  obtain ⟨n, hn⟩ := h env henv hcode.take
  obtain ⟨n', hn'⟩ := h' env henv hcode.drop
  refine ⟨n + n', ?_⟩
  rw [List.length_append, steps_trans hn hn', Nat.cast_add, mul_add, ← add_assoc]

/-- The words lead to one state. -/
theorem unique (h : RunsTo ws c c') (h' : RunsTo ws c c'') : c' = c'' := by
  obtain ⟨n, hn⟩ := h .idle rfl (codeAt_ofWords ws)
  obtain ⟨n', hn'⟩ := h' .idle rfl (codeAt_ofWords ws)
  exact congrArg Machine.toCpu
    (eq_of_stopped hn hn' (step_end .idle ws c') (step_end .idle ws c''))

/-- First a run, then an exception. -/
theorem traps (h : RunsTo ws c c') (h' : Traps ws' c') : Traps (ws ++ ws') c := by
  intro code pc hcode
  obtain ⟨n, hn⟩ := h .idle rfl hcode.take
  obtain ⟨n', hn'⟩ := h' code _ hcode.drop
  refine ⟨n + n', ?_⟩
  rw [steps_add, hn, ok_bind, hn']

end RunsTo

namespace Traps

variable {ws : List U32} {c : Cpu}

theorem word {w : U32} {i : Instr} (hdecode : decode w = some i)
    (htraps : i.traps .idle c = true) (ws : List U32) : Traps (w :: ws) c := by
  intro code pc hcode
  refine ⟨1, ?_⟩
  rw [steps_one, step_of_traps .idle hcode.head hdecode htraps]

theorem append (h : Traps ws c) (ws' : List U32) : Traps (ws ++ ws') c :=
  fun code pc hcode => h code pc hcode.take

/-- **No run ends behind an exception.** -/
theorem not_runsTo (h : Traps ws c) (c' : Cpu) : ¬ RunsTo ws c c' := by
  intro hruns
  obtain ⟨n, hn⟩ := h _ _ (codeAt_ofWords ws)
  obtain ⟨k, hk⟩ := hruns .idle rfl (codeAt_ofWords ws)
  exact steps_ne_of_error hn (step_end .idle ws c') k hk

end Traps

/-! ### The loop -/

/-- The words of the loop. -/
def loopWords (s : Reg) : List U32 := exchangeWords .cmpXchg (physOf s)

/-- The state after the load-reserved. -/
def afterLoad (c : Cpu) : Cpu :=
  { c with x := Function.update c.x 23 (c.load64 (c.x 23)), reserved := some (c.x 23) }

/-- After a store-conditional that has stored `v` at `a`. -/
def afterStore (c : Cpu) (a v : U64) : Cpu :=
  { c with x := Function.update c.x 23 0, mem := storeLe 8 c.mem a v, reserved := none }

/-- After a store-conditional that has failed. -/
def afterFailure (c : Cpu) : Cpu :=
  { c with x := Function.update c.x 23 1, reserved := none }

theorem afterLoad_x (c : Cpu) {r : Reg} (hr : r ≠ 23) : (afterLoad c).x r = c.x r :=
  Function.update_of_ne hr _ c.x

theorem afterStore_x (c : Cpu) (a v : U64) {r : Reg} (hr : r ≠ 23) :
    (afterStore c a v).x r = c.x r :=
  Function.update_of_ne hr _ c.x

/-- The store-conditional to an address that is reserved. -/
theorem Env.succeeds_self {env : Env} (henv : env.spurious = false) (a : U64) :
    env.succeeds (some a) a = true := by
  simp [Env.succeeds, henv]

/-- The store-conditional to another address. -/
theorem Env.idle_succeeds_of_ne {a₀ a : U64} (h : a₀ ≠ a) : idle.succeeds (some a₀) a = false := by
  simp [succeeds, idle, h]

section

variable {env : Env} {code : List U8} {pc : ℤ} {s : Reg} (hcode : CodeAt code pc (loopWords s))
  {c : Cpu}

include hcode

/-- The load, and the branch out of the loop. -/
theorem steps_load (halign : isAligned 8 (c.x 23)) : steps (step env code) ⟨c, pc⟩ 2 =
    .ok ⟨afterLoad c, pc + if c.load64 (c.x 23) = c.x 10 then 8 else 16⟩ := by
  have hload := step_of_fetch env hcode.head (i := .loadReserved 23 23) (c := c) (by decide)
    (congrArg not halign)
  have hbranch := step_of_fetch env (hcode 1 _ rfl) (i := .branch .ne 23 10 6)
    (c := afterLoad c) (by decide) rfl
  refine steps_trans (j := 1) (k := 1) hload (hbranch.trans ?_)
  have hne : Compare.ne.holds ((afterLoad c).get 23) ((afterLoad c).get 10) =
      decide (c.load64 (c.x 23) ≠ c.x 10) := rfl
  have hdisp : pc + 4 * ((1 : ℕ) : ℤ) + (Instr.branch .ne 23 10 6).displacement (afterLoad c) =
      pc + if c.load64 (c.x 23) = c.x 10 then 8 else 16 := by
    dsimp only [Instr.displacement]
    rw [hne, add_assoc]
    by_cases h : c.load64 (c.x 23) = c.x 10
    · rw [if_pos h, decide_eq_false (not_not.2 h)]
      rfl
    · rw [if_neg h, decide_eq_true h]
      rfl
  rw [hdisp]
  rfl

/-- The cell does not hold what is expected. -/
theorem steps_leave (halign : isAligned 8 (c.x 23)) (h : c.load64 (c.x 23) ≠ c.x 10) :
    steps (step env code) ⟨c, pc⟩ 2 = .ok ⟨afterLoad c, pc + 16⟩ := by
  rw [steps_load hcode halign, if_neg h]

/-- The store-conditional, and the branch back. -/
theorem steps_conditional (hs : s ≠ 0) (hs23 : s ≠ 23)
    (halign : isAligned 8 (c.load64 (c.x 23))) :
    steps (step env code) ⟨afterLoad c, pc + 8⟩ 2 =
      .ok (if env.succeeds (some (c.x 23)) (c.load64 (c.x 23)) then
        ⟨afterStore c (c.load64 (c.x 23)) (c.x s), pc + 16⟩ else ⟨afterFailure c, pc⟩) := by
  have haddress : (afterLoad c).get 23 = c.load64 (c.x 23) := rfl
  have hstore := step_of_fetch env (hcode 2 _ rfl) (c := afterLoad c) (decode_scD 23 s 23)
    (congrArg not halign)
  have hbranch := fun c' => step_of_fetch env (hcode 3 _ rfl) (i := .branch .ne 23 0 (-6))
    (c := c') (by decide) rfl
  refine steps_trans (j := 1) (k := 1) hstore ?_
  have hexec : (Instr.storeConditional 23 s 23).exec env (pc + 4 * ((2 : ℕ) : ℤ)) (afterLoad c) =
      if env.succeeds (some (c.x 23)) (c.load64 (c.x 23)) then
        afterStore c (c.load64 (c.x 23)) (c.x s) else afterFailure c := by
    have hvalue : (afterLoad c).get s = c.x s := by
      rw [Cpu.get_of_ne _ hs, afterLoad_x c hs23]
    have hreserved : (afterLoad c).reserved = some (c.x 23) := rfl
    dsimp only [Instr.exec]
    rw [haddress, hvalue, hreserved]
    refine if_congr Iff.rfl ?_ ?_
    · simp [Cpu.set, Cpu.store64, afterLoad, afterStore]
    · simp [Cpu.set, afterLoad, afterFailure]
  have hnext : pc + 4 * ((2 : ℕ) : ℤ) + 4 = pc + 4 * ((3 : ℕ) : ℤ) := by ring
  have hback : pc + 4 * ((3 : ℕ) : ℤ) + -12 = pc := by ring
  have hend : pc + 4 * ((3 : ℕ) : ℤ) + 4 = pc + 16 := by ring
  rw [hexec]
  show steps (step env code) ⟨_, pc + 4 * ((2 : ℕ) : ℤ) + 4⟩ 1 = _
  rw [hnext, steps_one, hbranch]
  cases env.succeeds (some (c.x 23)) (c.load64 (c.x 23)) with
  | true =>
    show Except.ok (Machine.mk (afterStore c _ (c.x s)) (pc + 4 * ((3 : ℕ) : ℤ) + 4)) = _
    rw [hend]
    rfl
  | false =>
    show Except.ok (Machine.mk (afterFailure c) (pc + 4 * ((3 : ℕ) : ℤ) + -12)) = _
    rw [hback]
    rfl

/-- The cell holds what is expected, and that is its address. -/
theorem steps_store (henv : env.spurious = false) (hs : s ≠ 0) (hs23 : s ≠ 23)
    (halign : isAligned 8 (c.x 23)) (h : c.load64 (c.x 23) = c.x 10)
    (haddress : c.x 10 = c.x 23) :
    steps (step env code) ⟨c, pc⟩ 4 = .ok ⟨afterStore c (c.x 23) (c.x s), pc + 16⟩ := by
  have hload : steps (step env code) ⟨c, pc⟩ 2 = .ok ⟨afterLoad c, pc + 8⟩ := by
    rw [steps_load hcode halign, if_pos h]
  have hself : c.load64 (c.x 23) = c.x 23 := h.trans haddress
  have hstore : isAligned 8 (c.load64 (c.x 23)) := by
    rw [hself]
    exact halign
  have hconditional := @steps_conditional env code pc s hcode c hs hs23 hstore
  rw [hself, if_pos (Env.succeeds_self henv _)] at hconditional
  exact steps_trans (j := 2) (k := 2) hload hconditional

end

/-- The cell holds what is expected, and the store goes elsewhere: it may fail, and then the next
load-reserved is from address 1. -/
theorem traps_again {s : Reg} (hs : s ≠ 0) (hs23 : s ≠ 23) {c : Cpu}
    (halign : isAligned 8 (c.x 23)) (h : c.load64 (c.x 23) = c.x 10)
    (haddress : c.x 10 ≠ c.x 23) : Traps (loopWords s) c := by
  intro code pc hcode
  have hload : steps (step .idle code) ⟨c, pc⟩ 2 = .ok ⟨afterLoad c, pc + 8⟩ := by
    rw [steps_load hcode halign, if_pos h]
  cases hstore : isAligned 8 (c.load64 (c.x 23)) with
  | false =>
    have htraps : step .idle code ⟨afterLoad c, pc + 8⟩ = Rust.panic :=
      step_of_traps .idle (hcode 2 _ rfl) (decode_scD 23 s 23) (congrArg not hstore)
    refine ⟨2 + 1, ?_⟩
    rw [steps_add, hload, ok_bind, steps_one, htraps]
  | true =>
    have hfails : Env.idle.succeeds (some (c.x 23)) (c.load64 (c.x 23)) = false :=
      Env.idle_succeeds_of_ne fun heq => haddress (h.symm.trans heq.symm)
    have hconditional := @steps_conditional .idle code pc s hcode c hs hs23 hstore
    rw [hfails] at hconditional
    have htraps : step .idle code ⟨afterFailure c, pc⟩ = Rust.panic :=
      step_of_traps .idle hcode.head (i := .loadReserved 23 23) (by decide) rfl
    refine ⟨4 + 1, ?_⟩
    rw [steps_add, steps_trans (j := 2) (k := 2) hload hconditional, ok_bind]
    exact htraps

/-- What compare-and-exchange leaves in memory, if its loop comes to an end. -/
def exchangeMem (c : Cpu) (a v : U64) : Option (U64 → U8) :=
  if c.load64 a ≠ c.x 10 then some c.mem
  else if c.x 10 = a then some (storeLe 8 c.mem a v)
  else none

theorem exchangeMem_of_ne {c : Cpu} {a : U64} (h : c.load64 a ≠ c.x 10) (v : U64) :
    exchangeMem c a v = some c.mem := if_pos h

theorem exchangeMem_of_eq {c : Cpu} {a : U64} (h : c.load64 a = c.x 10) (v : U64) :
    exchangeMem c a v = if c.x 10 = a then some (storeLe 8 c.mem a v) else none :=
  if_neg (not_not.2 h)

section

variable {s : Reg} (hs : s ≠ 0) (hs23 : s ≠ 23) {c : Cpu} (halign : isAligned 8 (c.x 23))

include hs hs23 halign

/-- **The loop ends.** -/
theorem runsTo_loop {mem : U64 → U8} (h : exchangeMem c (c.x 23) (c.x s) = some mem) :
    ∃ c', RunsTo (loopWords s) c c' ∧ c'.mem = mem ∧ ∀ r, r ≠ 23 → c'.x r = c.x r := by
  by_cases hold : c.load64 (c.x 23) = c.x 10
  · rw [exchangeMem_of_eq hold] at h
    split_ifs at h with haddress
    exact ⟨_, fun env _ _ henv hcode => ⟨4, steps_store hcode henv hs hs23 halign hold haddress⟩,
      Option.some.inj h, fun r hr => afterStore_x c _ _ hr⟩
  · rw [exchangeMem_of_ne hold] at h
    exact ⟨_, fun env _ _ _ hcode => ⟨2, steps_leave hcode halign hold⟩, Option.some.inj h,
      fun r hr => afterLoad_x c hr⟩

/-- **It does not.** -/
theorem traps_loop (h : exchangeMem c (c.x 23) (c.x s) = none) : Traps (loopWords s) c := by
  unfold exchangeMem at h
  split_ifs at h with hold haddress
  exact traps_again hs hs23 halign (not_not.1 hold) haddress

end

/-! ### Atomic operations -/

/-- The address that the words of an atomic operation compute. -/
def atomicAddress (c : Cpu) (base : Reg) (off : I16) : U64 :=
  c.x base + ((off.signExtend 32).setWidth 12).signExtend 64

/-- What the words of an atomic operation leave in memory, if they come to an end. -/
def atomicMem (op : AtomicOp) (c : Cpu) (a v : U64) : Option (U64 → U8) :=
  if isAligned 8 a then
    if op = .cmpXchg then exchangeMem c a v
    else some (storeLe 8 c.mem a (atomicNew op (c.load64 a) v (c.x 10)))
  else none

theorem atomicMem_congr (op : AtomicOp) {c c' : Cpu} (hmem : c'.mem = c.mem)
    (h10 : c'.x 10 = c.x 10) (a v : U64) : atomicMem op c' a v = atomicMem op c a v := by
  unfold atomicMem exchangeMem Cpu.load64
  rw [hmem, h10]

/-- The words before the operation. -/
theorem runsTo_address {base : Reg} (hbase : base ≠ 0) (off : I16) (c : Cpu) :
    ∃ c', RunsTo [addressWord (physOf base) off, fenceRwRw] c c' ∧
      c'.x 23 = atomicAddress c base off ∧ SameOutside {23} c c' := by
  have haddress : Writes [addressWord (physOf base) off] {23} c 23 (atomicAddress c base off) := by
    have hword := fun imm => writes_addi (by decide : (23 : Reg) ≠ 0) c base imm
    unfold addressWord atomicAddress
    rw [← c.get_of_ne hbase]
    split_ifs with hoff
    · exact hword _
    · rw [not_not.1 hoff]
      exact hword 0
  obtain ⟨c', hline, hval, hsame⟩ := haddress
  have hfence : Line [fenceRwRw] c' c' := Line.word (i := .fence) (by decide) rfl c'
  exact ⟨c', RunsTo.line (hline.append hfence), hval, hsame⟩

section

variable (funct5 : BitVec 5) {f : AmoOp} (h : amoOp funct5 = some f) {s : Reg} {c : Cpu}

include h

/-- One instruction on memory. -/
theorem runsTo_amo (hs : s ≠ 0) (halign : isAligned 8 (c.x 23)) :
    RunsTo [amo (funct5.setWidth 32) true true (s.setWidth 8) tmp 3 0] c
      { c with mem := storeLe 8 c.mem (c.x 23) (f.eval (c.load64 (c.x 23)) (c.x s)) } := by
  refine RunsTo.word (decode_amo funct5 h 0 s 23) (fun env => ?_) (fun env pc => ?_) rfl
  · show (!(isAligned 8 (c.x 23) || env.misaligned (c.x 23))) = false
    rw [halign]
    rfl
  · dsimp only [Instr.exec, Instr.effect]
    rw [Cpu.set_zero, c.get_of_ne hs]
    rfl

theorem traps_amo (halign : isAligned 8 (c.x 23) = false) :
    Traps [amo (funct5.setWidth 32) true true (s.setWidth 8) tmp 3 0] c := by
  refine Traps.word (decode_amo funct5 h 0 s 23) ?_ []
  show (!(isAligned 8 (c.x 23) || false)) = true
  rw [halign]
  rfl

end

/-- The words between the fences. -/
theorem runsTo_exchange (op : AtomicOp) {s : Reg} (hs : s ≠ 0) (hs23 : s ≠ 23) {c : Cpu}
    {mem : U64 → U8} (h : atomicMem op c (c.x 23) (c.x s) = some mem) :
    ∃ c', RunsTo (exchangeWords op (physOf s)) c c' ∧ c'.mem = mem ∧
      ∀ r, r ≠ 23 → c'.x r = c.x r := by
  unfold atomicMem at h
  split_ifs at h with halign hop
  · subst hop
    exact runsTo_loop hs hs23 halign h
  · have hone : ∀ (funct5 : BitVec 5) {f : AmoOp}, amoOp funct5 = some f →
        storeLe 8 c.mem (c.x 23) (f.eval (c.load64 (c.x 23)) (c.x s)) = mem →
        ∃ c', RunsTo [amo (funct5.setWidth 32) true true (s.setWidth 8) tmp 3 0] c c' ∧
          c'.mem = mem ∧ ∀ r, r ≠ 23 → c'.x r = c.x r := fun funct5 _ hf hmem =>
      ⟨_, runsTo_amo funct5 hf hs halign, hmem, fun _ _ => rfl⟩
    have hmem := Option.some.inj h
    cases op with
    | add | fetchAdd => exact hone 0 rfl hmem
    | or | fetchOr => exact hone 8 rfl hmem
    | and | fetchAnd => exact hone 0x0C rfl hmem
    | xor | fetchXor => exact hone 4 rfl hmem
    | xchg => exact hone 1 rfl hmem
    | cmpXchg => exact absurd rfl hop

theorem traps_exchange (op : AtomicOp) {s : Reg} (hs : s ≠ 0) (hs23 : s ≠ 23) {c : Cpu}
    (h : atomicMem op c (c.x 23) (c.x s) = none) : Traps (exchangeWords op (physOf s)) c := by
  unfold atomicMem at h
  split_ifs at h with halign hop
  · subst hop
    exact traps_loop hs hs23 halign h
  · have hfalse := Bool.eq_false_iff.2 halign
    cases op with
    | add | fetchAdd => exact traps_amo 0 rfl hfalse
    | or | fetchOr => exact traps_amo 8 rfl hfalse
    | and | fetchAnd => exact traps_amo 0x0C rfl hfalse
    | xor | fetchXor => exact traps_amo 4 rfl hfalse
    | xchg => exact traps_amo 1 rfl hfalse
    | cmpXchg => exact Traps.word (i := .loadReserved 23 23) (by decide) (congrArg not hfalse) _

section

variable (op : AtomicOp) {base s : Reg} (hbase : base ≠ 0) (hs : s ≠ 0) (hs23 : s ≠ 23)
  (off : I16) {c : Cpu}

include hbase hs hs23

/-- **Atomic operations end**, and change nothing else than memory and the scratch register. -/
theorem runsTo_atomic {mem : U64 → U8}
    (h : atomicMem op c (atomicAddress c base off) (c.x s) = some mem) :
    ∃ c', RunsTo (atomicWords op (physOf base) (physOf s) off) c c' ∧ c'.mem = mem ∧
      ∀ r, r ≠ 23 → c'.x r = c.x r := by
  obtain ⟨c₁, hruns₁, haddress, hsame⟩ := runsTo_address hbase off c
  rw [← atomicMem_congr op hsame.mem (hsame.x 10 (by decide)), ← haddress, ← hsame.x s hs23] at h
  obtain ⟨c₂, hruns₂, hmem, hkeep⟩ := runsTo_exchange op hs hs23 h
  have hfence : RunsTo [fenceRwRw] c₂ c₂ :=
    RunsTo.line (Line.word (i := .fence) (by decide) rfl c₂)
  exact ⟨c₂, hruns₁.append (hruns₂.append hfence), hmem,
    fun r hr => (hkeep r hr).trans (hsame.x r hr)⟩

/-- **They come to an exception.** -/
theorem traps_atomic (h : atomicMem op c (atomicAddress c base off) (c.x s) = none) :
    Traps (atomicWords op (physOf base) (physOf s) off) c := by
  obtain ⟨c₁, hruns₁, haddress, hsame⟩ := runsTo_address hbase off c
  rw [← atomicMem_congr op hsame.mem (hsame.x 10 (by decide)), ← haddress, ← hsame.x s hs23] at h
  exact hruns₁.traps ((traps_exchange op hs hs23 h).append [fenceRwRw])

end

end NVMirror.Riscv
