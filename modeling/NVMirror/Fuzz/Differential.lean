import NVMirror.Fuzz.Beside
import NVMirror.Fuzz.Oracle
import NVMirror.JitEngine.Aarch64Execution
import NVMirror.JitEngine.Capacity

/-!
# The oracle finds no mismatch

* `callNative_of_steps`: native code that comes to its `RET` returns.
* `GeneratedProgram.native`: the code of a generated program returns what the interpreter returns.
* `fuzzOne_agrees`: an iteration of the fuzzer passes, or the program reads a register that may be
  uninitialised, or the code does not fit into an executable buffer.
-/

namespace NVMirror

open Rust Leaders Bytes

/-! ### Native code -/

section

variable {env : Aarch64.Full.Env} {code : List U8} {m m' : Aarch64.Machine}

/-- What stands behind the code does not change its steps. -/
theorem Aarch64.Full.step_append {w : U32} (h : fetchU32 code m.pc = some w) (rest : List U8) :
    Full.step env (code ++ rest) m = Full.step env code m := by
  unfold Full.step
  rw [h, fetchU32_append h]

theorem Aarch64.atRet_append {w : U32} (h : fetchU32 code m.pc = some w) (rest : List U8) :
    AtRet (code ++ rest) m ↔ AtRet code m := by
  unfold AtRet
  rw [h, fetchU32_append h]

/-- **Code that comes to its `RET` returns**, given fuel for the steps. -/
theorem callNative_of_steps {n : ℕ} (hsteps : steps (Aarch64.Full.step env code) m n = .ok m')
    (hret : Aarch64.AtRet code m') (rest : List U8) {fuel : ℕ} (hfuel : n < fuel) :
    callNative env (code ++ rest) fuel m = .ok (some (m'.x 0)) := by
  induction n generalizing m fuel with
  | zero =>
    cases hsteps
    obtain ⟨w, hfetch, -⟩ := Option.bind_eq_some_iff.1 hret
    obtain ⟨fuel, rfl⟩ := Nat.exists_eq_succ_of_ne_zero (Nat.ne_of_gt hfuel)
    rw [callNative, if_pos ((Aarch64.atRet_append hfetch rest).2 hret)]
    rfl
  | succ n ih =>
    obtain ⟨fuel, rfl⟩ := Nat.exists_eq_succ_of_ne_zero (Nat.ne_of_gt (Nat.zero_lt_of_lt hfuel))
    rw [Nat.add_comm, steps_add, steps_one] at hsteps
    obtain ⟨u, hu, hsteps⟩ := bind_eq_ok.1 hsteps
    cases hfetch : fetchU32 code m.pc with
    | none =>
      -- the run is stuck in `m`
      rw [Aarch64.Full.step_of_fetch_none hfetch] at hu
      cases hu
      exact ih hsteps (by omega)
    | some w =>
      by_cases hatRet : Aarch64.AtRet code m
      · rw [Aarch64.Full.step_of_atRet hatRet] at hu
        cases hu
        exact ih hsteps (by omega)
      · rw [callNative, if_neg (mt (Aarch64.atRet_append hfetch rest).1 hatRet),
          Aarch64.Full.step_append hfetch, hu, ok_bind]
        exact ih hsteps (by omega)

end

/-! ### Executable buffers of the host -/

/-- The operating system has memory for executable buffers. -/
structure Host.HasMemory (host : Host) : Prop where
  maps : Maps host.alloc
  gives : ∀ size, 0 < size → size ≤ maxJitBufferSize → ∃ mem, host.alloc size = .ok mem

/-- Code that fits is executed where it stands. -/
theorem executeNative_of_le {host : Host} (hmem : host.HasMemory) {code : List U8}
    (hpos : 0 < code.length) (hle : code.length ≤ maxJitBufferSize) :
    ∃ rest, ∀ fuel, executeNative host fuel code =
      callNative host.env (code ++ rest) fuel host.enter := by
  have hmax : maxJitBufferSize = 65536 := rfl
  have hpages : code.length ≤ pages code.length ∧ pages code.length ≤ maxJitBufferSize := by
    unfold pages
    omega
  obtain ⟨mem, hmem'⟩ := hmem.gives (pages code.length) (by omega) hpages.2
  have hroom : code.length ≤ mem.length := hpages.1.trans_eq (hmem.maps _ _ hmem').symm
  refine ⟨mem.drop code.length, fun fuel => ?_⟩
  rw [executeNative, ExecBuffer.new_eq _ hle, hmem', ok_bind]
  show (expect (ExecBuffer.writeCode ⟨mem, pages code.length, 0⟩ code) >>= _) = _
  rw [ExecBuffer.writeCode, if_neg (not_lt.2 hpages.1), copyTo, if_pos hroom]
  rfl

/-- Code that does not fit is a panic. -/
theorem executeNative_of_lt (host : Host) (fuel : ℕ) {code : List U8}
    (hlt : maxJitBufferSize < code.length) : executeNative host fuel code = panic := by
  rw [executeNative, ExecBuffer.new, if_pos hlt]
  rfl

/-! ### Generated programs -/

section

variable [Profile] {raw : List RawInsn} {insns : List Insn} {out : JitOutput}

omit [Profile] in
/-- The words of every instruction of a generated program do what the interpreter does. -/
theorem GeneratedProgram.exact (hgen : GeneratedProgram raw insns)
    (hplain : ∀ insn ∈ insns, insn.Plain) (stackPtr : U64) {s : InterpreterState} {insn : Insn}
    (hexec : executed insns s = some insn) : Aarch64.Exact stackPtr s insn := by
  obtain ⟨-, hinsn⟩ := executed_eq_some.1 hexec
  rcases hgen.generated_or_exit hinsn with ⟨hinsn', -⟩ | ⟨rfl, -⟩
  · cases hinsn' with
    | alu64 | alu32 => trivial
    | jmpCond =>
      have hne := (hplain _ (List.mem_of_getElem? hinsn)).bitTest rfl
      exact fun heq => absurd heq hne
  · trivial

/-- **The code of a generated program** returns what the interpreter returns, on a processor in any
state. -/
theorem GeneratedProgram.native (hgen : GeneratedProgram raw insns)
    (hplain : ∀ insn ∈ insns, insn.Plain) (hdec : decodeProgram raw = .ok insns)
    (hout : compile raw .aArch64 = .ok out) (host : Host) {stackPtr : U64} {k : ℕ}
    {t : InterpreterState} (hrun : stepN stackPtr insns .new k = .ok t)
    (hexit : executed insns t = some .exit) :
    ∃ n m', n ≤ Aarch64.maxExpansionRatio * (k + 3) ∧
      steps (Aarch64.Full.step host.env out.code) host.enter n = .ok m' ∧
      Aarch64.AtRet out.code m' ∧ m'.x 0 = t.regs BpfReg.r0 := by
  obtain ⟨hacc, hir, -⟩ := compile_stages hdec hout
  have hof := lowerToIr_frameOf hacc hir
  -- the buffer of the second interpreter is a part of memory behind the frame
  let c := host.enter.toCpu
  let stackPtr' := Aarch64.frameBase out.ir.frameSize c + BitVec.ofNat 64 512
  let regs : BpfReg → U64 := fun r => c.x (Aarch64.xreg r)
  let stack : Fin stackSize → U8 := fun i => c.mem (addrAt stackPtr' i)
  have hapart : Aarch64.FrameApart out.ir.frameSize stackPtr' c := apart_add _ hof.le (by decide)
  have hr1 : InterpreterState.new.regs BpfReg.r1 = regs BpfReg.r1 := rfl
  have hpar : InParallel insns .new (.start regs stack) := InParallel.start _ _ hr1
  have hrel := hpar.stepN hgen hplain hacc.toVerified stackPtr stackPtr' k
  rw [hrun] at hrel
  cases hrun' : @stepN release stackPtr' insns (.start regs stack) k with
  | error f =>
    rw [hrun'] at hrel
    exact hrel.elim
  | ok t' =>
    rw [hrun'] at hrel
    have hpar' : InParallel insns t t' := hrel
    have hresult := hpar'.result hacc.toVerified hexit
    obtain ⟨I, hbeside, -⟩ := hpar'
    have hexit' : executed insns t' = some .exit := hbeside.executed.symm.trans hexit
    -- the step that halts
    have hlast : @stepN release stackPtr' insns (.start regs stack) (k + 1) =
        .ok { t' with halted := true } :=
      (@stepN_succ_eq_ok release _ _ _ _ _).2 ⟨t', false, hrun',
        @step_of_executed release _ _ _ _ hexit'⟩
    have hexact : ExactRun (Aarch64.Exact stackPtr') stackPtr' insns out.ir.frameSize
        (.start regs stack) (k + 1) :=
      ⟨fun _ _ _ _ _ hex => hgen.exact hplain stackPtr' hex,
        fun _ _ _ _ hu =>
          @GeneratedProgram.pc_ne_zero release _ _ _ hgen hacc.toVerified _ _ _ _ hu⟩
    obtain ⟨n, m', hle, hsteps, hatRet, hreturned⟩ := compiled_aarch64_reaches hdec hout
      (fun _ => rfl) (fun _ => rfl) hapart host.env hlast ⟨rfl, (executed_eq_some.1 hexit').2⟩
      hexact
    exact ⟨n, m', hle, hsteps, hatRet, hreturned.result.trans hresult.symm⟩

/-- The size of compiled code. -/
theorem length_code_le (hdec : decodeProgram raw = .ok insns)
    (hout : compile raw .aArch64 = .ok out) : out.code.length ≤ 32 + 68 * insns.length := by
  obtain ⟨hacc, hir, hemit⟩ := compile_stages hdec hout
  obtain ⟨flags, pcToBb, nodes, h⟩ := (lowerToIr_meets hacc _).of_ok hir
  obtain ⟨e, he, hcode⟩ := bind_eq_ok.1 (mapErr_eq_ok.1 hemit)
  have hfits :=
    (fits_of_ok Aarch64.appends_emitNode Aarch64.appendsAtMost_emitNode he).2 _ _ _ hcode
  have hsize := hfits.le
  have hnodes := (h.code_bounds hacc.ne_nil).1
  have hblocks := length_positions_le flags
  rw [h.marks.length_eq, ← h.length_eq] at hblocks
  rw [calculateSize_eq] at hsize
  unfold Aarch64.maxExpansionRatio at hsize
  omega

/-- Programs of limited size that the verifier accepts are compiled. -/
theorem compile_of_verify {n : ℕ} (hdec : decodeProgram raw = .ok insns)
    (hver : verifyProgram insns = .ok n) (hlen : insns.length ≤ 10000) :
    ∃ out, compile raw .aArch64 = .ok out := by
  have hacc := accepted_of_ok hdec hver
  obtain ⟨ir, hir, flags, pcToBb, nodes, h⟩ :=
    (lowerToIr_meets hacc (regmapForTarget .aArch64)).exists_ok
  have hsize : dryRunSize ir .aArch64 ≤ sizeLimit .aArch64 := by
    have hnodes := (h.code_bounds hacc.ne_nil).1
    have hblocks := length_positions_le flags
    rw [h.marks.length_eq, ← h.length_eq] at hblocks
    show Emitter.calculateSize Aarch64.maxExpansionRatio ir ≤ 2 ^ 20
    rw [calculateSize_eq]
    unfold Aarch64.maxExpansionRatio
    omega
  obtain ⟨code, hcode⟩ := h.emitForTarget_ok hacc hsize
  refine ⟨⟨code, ir, n⟩, ?_⟩
  unfold compile
  rw [hdec]
  show (mapErr JitError.verify (verifyProgram insns) >>= _) = _
  rw [hver]
  show (mapErr Empty.elim (lowerToIr insns (regmapForTarget .aArch64)) >>= _) = _
  rw [hir]
  show (emitForTarget ir .aArch64 >>= _) = _
  rw [hcode]
  rfl

end

/-! ### The oracle -/

section

variable [Profile] {ρ : Type} (nextU64 : ρ → U64 × ρ) {raw : List RawInsn} {insns : List Insn}
  {host : Host} {stackPtr : U64} {limit : ℕ}

/-- The oracle after the interpreter. -/
theorem fuzzOne_eq {rng rng' : ρ} {v : U64} {s : InterpreterState}
    (hgen : generateProgram nextU64 limit rng = .ok (raw, rng'))
    (hdec : decodeProgram raw = .ok insns) (hrun : run stackPtr insns 10000 .new = .ok (v, s))
    (fuel : ℕ) : fuzzOne nextU64 host fuel stackPtr limit rng =
      (checkProgram host fuel v raw).map fun r => (r, rng') := by
  show (generateProgram nextU64 limit rng >>= _) = _
  rw [hgen, ok_bind]
  dsimp only
  rw [hdec]
  show ((run stackPtr insns 10000 .new >>= fun a => pure (a, rng')) >>= _) = _
  rw [hrun]
  show ((checkProgram host fuel v raw >>= fun a => pure (a, rng')) = _)
  cases checkProgram host fuel v raw <;> rfl

/-- **The fuzzer finds no mismatch.**  Up to the step limit of the interpreter, and whatever the
numbers drawn and the state of the processor: the interpreter runs the program to its `Exit`, and
an iteration passes with its result, after at most 80016 native instructions, or is a compile error
since the program reads a register that may be uninitialised, or, from larger limits only, panics
since the code does not fit into an executable buffer. -/
theorem fuzzOne_agrees (rng : ρ) (hlimit : limit ≤ 10000) (hmem : host.HasMemory) :
    ∃ raw rng' insns s, generateProgram nextU64 limit rng = .ok (raw, rng') ∧
      decodeProgram raw = .ok insns ∧ Exited insns s ∧
      run stackPtr insns 10000 .new = .ok (s.regs BpfReg.r0, s) ∧
      ((∀ fuel > 80016, fuzzOne nextU64 host fuel stackPtr limit rng =
          .ok (some (.pass (s.regs BpfReg.r0)), rng')) ∨
        (∃ pc reg, ∀ fuel, fuzzOne nextU64 host fuel stackPtr limit rng =
          .ok (some (.compileError (.jit (.verify (.uninitializedRegRead pc reg)))), rng')) ∨
        900 < limit ∧ ∀ fuel, fuzzOne nextU64 host fuel stackPtr limit rng = panic) := by
  have hmax : maxInsns = 1000000 := rfl
  have hsmall : limit < 2 ^ 63 := by omega
  obtain ⟨raw, rng', hgenerate, ⟨hlen, insns, hgen⟩, htemplates⟩ :=
    ((generateProgram_yields nextU64 hsmall).and
      (generateProgram_templates nextU64 hsmall)).exists_ok rng
  have hlength := hgen.decodes.length_eq
  have hpos := hgen.length_pos
  have hne : raw ≠ [] := by
    rintro rfl
    rw [List.length_nil] at hlength
    omega
  have hdec := decodeProgram_of_decodes hgen.decodes hne (by omega)
  have hplain : ∀ insn ∈ insns, insn.Plain := by
    intro insn hmem
    obtain ⟨i, hi⟩ := List.getElem?_of_mem hmem
    obtain ⟨hlt, rfl⟩ := List.getElem?_eq_some_iff.1 hi
    have hdecodes := (List.forall₂_iff_get.1 hgen.decodes).2 i (by omega) hlt
    exact (htemplates _ (List.getElem_mem _)).plain hdecodes
  -- the interpreter
  obtain ⟨k, t, hk, hsteps, hhalt, hpc, hrun⟩ :=
    @GeneratedProgram.run_exits raw insns _ stackPtr hgen (by omega) .new rfl hpos
  have hlast : insns[t.pc]? = some .exit := by
    rw [show t.pc = insns.length - 1 by omega]
    exact hgen.last
  have hk' : k < 10000 := by omega
  have hrun' : run stackPtr insns 10000 .new =
      .ok (t.regs BpfReg.r0, { t with halted := true }) := by
    rw [run, hrun _ hk']
    rfl
  refine ⟨raw, rng', insns, { t with halted := true }, hgenerate, hdec, ⟨rfl, hlast⟩, hrun', ?_⟩
  have heq := fun fuel => @fuzzOne_eq _ ρ nextU64 raw insns host stackPtr limit rng rng' _ _
    hgenerate hdec hrun' fuel
  rcases hgen.verifyProgram_meets (by omega) with ⟨n, hver⟩ | ⟨pc, reg, hver⟩
  · obtain ⟨out, hout⟩ := compile_of_verify hdec hver (by omega)
    have hcheck : ∀ fuel, checkProgram host fuel (t.regs BpfReg.r0) raw =
        (executeNative host fuel out.code).map (Option.map fun jitResult =>
          if jitResult ≠ t.regs BpfReg.r0 then .mismatch (t.regs BpfReg.r0) jitResult raw
          else .pass (t.regs BpfReg.r0)) := by
      intro fuel
      rw [checkProgram, hout]
      dsimp only
      cases executeNative host fuel out.code <;> rfl
    by_cases hfits : out.code.length ≤ maxJitBufferSize
    · left
      obtain ⟨n, m', hle, hnative, hatRet, hresult⟩ :=
        hgen.native hplain hdec hout host hsteps (executed_eq_some.2 ⟨hhalt, hlast⟩)
      have hcode : 0 < out.code.length := by
        obtain ⟨w, hfetch, -⟩ := Option.bind_eq_some_iff.1 hatRet
        refine List.length_pos_iff.2 fun hnil => ?_
        rw [hnil] at hfetch
        unfold fetchU32 at hfetch
        split_ifs at hfetch
        cases hfetch
      obtain ⟨rest, hexec⟩ := executeNative_of_le hmem hcode hfits
      intro fuel hfuel
      have hfuel' : n < fuel := by
        unfold Aarch64.maxExpansionRatio at hle
        omega
      rw [heq, hcheck, hexec, callNative_of_steps hnative hatRet rest hfuel', hresult]
      show (.ok (some (if t.regs BpfReg.r0 ≠ t.regs BpfReg.r0 then _ else _), rng') :
        Rust Empty _) = _
      rw [if_neg (not_not.2 rfl)]
    · right
      right
      have hsize := length_code_le hdec hout
      have hmaxsize : maxJitBufferSize = 65536 := rfl
      refine ⟨by omega, fun fuel => ?_⟩
      rw [heq, hcheck, executeNative_of_lt host fuel (not_le.1 hfits)]
      rfl
  · right
    left
    refine ⟨pc, reg, fun fuel => ?_⟩
    have hcompile : compile raw .aArch64 = fail (.verify (.uninitializedRegRead pc reg)) := by
      unfold compile
      rw [hdec]
      show (mapErr JitError.verify (verifyProgram insns) >>= _) = _
      rw [hver]
      rfl
    rw [heq, checkProgram, hcompile]
    rfl

/-- A host whose registers hold 7 and whose memory holds 1. -/
def sevens : Host where
  alloc size := .ok (List.replicate size 0)
  cpu := ⟨fun _ => 7, ⟨true, true, true, true⟩, fun _ => 1⟩
  env := .idle

omit [Profile] in
/-- `fuzzOne_agrees` for the first program from the seed 42, of at most 10 instructions. -/
theorem fuzzOne_agrees_seed42 : ∃ raw rng' insns s,
    @generateProgram Rng debug Rng.nextU64 10 (Rng.new 42) = .ok (raw, rng') ∧
      decodeProgram raw = .ok insns ∧ Exited insns s ∧
      ((∀ fuel > 80016, @fuzzOne debug Rng Rng.nextU64 sevens fuel 0x1000 10 (Rng.new 42) =
          .ok (some (.pass (s.regs BpfReg.r0)), rng')) ∨
        ∃ pc reg, ∀ fuel, @fuzzOne debug Rng Rng.nextU64 sevens fuel 0x1000 10 (Rng.new 42) =
          .ok (some (.compileError (.jit (.verify (.uninitializedRegRead pc reg)))), rng')) := by
  have hmem : sevens.HasMemory := by
    refine ⟨fun size mem h => ?_, fun size _ _ => ⟨_, rfl⟩⟩
    cases h
    exact List.length_replicate
  obtain ⟨raw, rng', insns, s, hgenerate, hdec, hexit, -, hcase⟩ :=
    @fuzzOne_agrees debug Rng Rng.nextU64 sevens 0x1000 10 (Rng.new 42) (by decide) hmem
  refine ⟨raw, rng', insns, s, hgenerate, hdec, hexit, ?_⟩
  rcases hcase with hpass | huninit | ⟨hlimit, -⟩
  · exact Or.inl hpass
  · exact Or.inr huninit
  · exact absurd hlimit (by decide)

end

end NVMirror
