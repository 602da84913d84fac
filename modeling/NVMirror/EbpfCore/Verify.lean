import NVMirror.EbpfCore.Isa
import NVMirror.Library.Leaders

/-!
# The static verifier (`crates/ebpf-core/src/verify.rs`)

`verifyProgram` runs three phases: find the basic blocks (`findBbStarts`, `buildCfg`), propagate
register initialisation to a fixed point (`dataflowAnalysis`), check reachability
(`checkExitReachability`).  Each `for` loop of the source is a `foldlM` over the sequence the loop
runs through, with the loop body as a definition of its own.
-/

namespace NVMirror

open Rust Leaders

/-- Maximum number of passes before "possible infinite loop". -/
def maxBackEdgeTraversals : ℕ := 32

/-- Why a program is rejected. -/
inductive VerifyError
  | branchOutOfBounds (pc : ℕ) (target : ℤ)
  | uninitializedRegRead (pc : ℕ) (reg : BpfReg)
  | stackOutOfBounds (pc : ℕ) (offset : I16)
  | writeToR10 (pc : ℕ)
  | noExitInstruction
  | unreachableCode (pc : ℕ)
  | backEdgeBudgetExceeded (pc : ℕ)
  | fallthroughAfterExit (pc : ℕ)
  | emptyProgram
  deriving DecidableEq, Repr

/-! ### Register states -/

/-- Initialisation state of one register. -/
inductive RegState
  | uninit
  | init
  deriving DecidableEq, Repr

/-- Register states at a program point. -/
@[ext] structure RegFile where
  regs : BpfReg → RegState

namespace RegFile

/-- At entry `R1` (context) and `R10` (frame pointer) are initialised. -/
def newEntry : RegFile where
  regs := Function.update (Function.update (fun _ => .uninit) BpfReg.r1 .init) BpfReg.r10 .init

/-- No register is initialised. -/
def newUninit : RegFile where
  regs _ := .uninit

/-- Is the register initialised? -/
def isInit (s : RegFile) (r : BpfReg) : Bool := s.regs r = .init

/-- A register that was written. -/
def markInit (s : RegFile) (r : BpfReg) : RegFile where
  regs := Function.update s.regs r .init

/-- `state.regs[r.index()] = RegState::Uninit`. -/
def markUninit (s : RegFile) (r : BpfReg) : RegFile where
  regs := Function.update s.regs r .uninit

/-- A register is initialised after a merge iff it is on both paths. -/
def merge (s other : RegFile) : RegFile where
  regs i := if s.regs i = .init ∧ other.regs i = .init then .init else .uninit

/-- Has the merge changed nothing? -/
def equals (s other : RegFile) : Bool := s.regs = other.regs

end RegFile

/-- A basic block `[start, stop)` of the control-flow graph. -/
structure BasicBlock where
  start : ℕ
  /-- Exclusive end. -/
  stop : ℕ
  successors : List ℕ
  regStateIn : RegFile
  reachable : Bool

/-! ### Phase 1: basic blocks -/

/-- Resolve a relative branch offset to an absolute instruction index. -/
def resolveBranch (pc : ℕ) (off : I16) (progLen : ℕ) : Rust VerifyError ℕ := do
  let pcI ← toIsize pc
  let pc1 ← isizeAdd pcI 1
  let target ← isizeAdd pc1 off.toInt
  let len ← toIsize progLen
  if target < 0 ∨ len ≤ target then fail (.branchOutOfBounds pc target)
  else pure (asUsize target)

/-- `if pc + 1 < n { is_start[pc + 1] = true; }` -/
def markNext {ε : Type} (n pc : ℕ) (isStart : List Bool) : Rust ε (List Bool) := do
  let pc1 ← usizeAdd pc 1
  if pc1 < n then setAt isStart pc1 true else pure isStart

/-- Loop body of `findBbStarts`. -/
def markStarts (n : ℕ) (isStart : List Bool) (x : Insn × ℕ) : Rust VerifyError (List Bool) :=
  let (insn, pc) := x
  match insn with
  | .ja off | .jmpCond _ _ _ off | .jmpCond32 _ _ _ off => do
    let target ← resolveBranch pc off n
    let isStart ← setAt isStart target true
    markNext n pc isStart
  | .exit => markNext n pc isStart
  | _ => pure isStart

/-- The starts of the basic blocks: index 0, jump targets, and what follows a jump or an exit. -/
def findBbStarts (insns : List Insn) : Rust VerifyError (List ℕ) := do
  let n := insns.length
  let isStart ← setAt (List.replicate n false) 0 true
  let isStart ← insns.zipIdx.foldlM (markStarts n) isStart
  pure (positions isStart)

/-- End of the block with index `bbIdx`. -/
def blockEnd (n : ℕ) (bbStarts : List ℕ) (bbIdx : ℕ) : Rust VerifyError ℕ := do
  let bbIdx1 ← usizeAdd bbIdx 1
  if bbIdx1 < bbStarts.length then index bbStarts bbIdx1 else pure n

/-- Loop body of the first loop of `buildCfg`: map the instructions of a block to its index. -/
def fillInsnToBb (n : ℕ) (bbStarts : List ℕ) (insnToBb : List ℕ) (x : ℕ × ℕ) :
    Rust VerifyError (List ℕ) := do
  let (start, bbIdx) := x
  let stop ← blockEnd n bbStarts bbIdx
  (List.range' start (stop - start)).foldlM (fun m i => setAt m i bbIdx) insnToBb

/-- Fall through to the next block, when there is one. -/
def fallthroughSuccessor (n : ℕ) (insnToBb : List ℕ) (stop : ℕ) : Rust VerifyError (List ℕ) :=
  if stop < n then do
    let bb ← index insnToBb stop
    pure [bb]
  else
    pure []

/-- Successors of the block that ends with `lastInsn`. -/
def blockSuccessors (n : ℕ) (insnToBb : List ℕ) (stop lastPc : ℕ) (lastInsn : Insn) :
    Rust VerifyError (List ℕ) :=
  match lastInsn with
  | .ja off => do
    let target ← resolveBranch lastPc off n
    let bb ← index insnToBb target
    pure [bb]
  | .jmpCond _ _ _ off | .jmpCond32 _ _ _ off => do
    let successors ← fallthroughSuccessor n insnToBb stop
    let target ← resolveBranch lastPc off n
    let bb ← index insnToBb target
    pure (successors ++ [bb])
  | .exit => pure []
  | _ => fallthroughSuccessor n insnToBb stop

/-- Loop body of the second loop of `buildCfg`. -/
def pushBlock (insns : List Insn) (bbStarts insnToBb : List ℕ) (bbs : List BasicBlock)
    (x : ℕ × ℕ) : Rust VerifyError (List BasicBlock) := do
  let (start, bbIdx) := x
  let n := insns.length
  let stop ← blockEnd n bbStarts bbIdx
  let lastPc ← usizeSub stop 1
  let lastInsn ← index insns lastPc
  let successors ← blockSuccessors n insnToBb stop lastPc lastInsn
  pure (bbs ++ [{ start, stop, successors
                  regStateIn := if bbIdx = 0 then RegFile.newEntry else RegFile.newUninit
                  reachable := decide (bbIdx = 0) }])

/-- The basic blocks with their successors; only block 0 is reachable yet. -/
def buildCfg (insns : List Insn) (bbStarts : List ℕ) : Rust VerifyError (List BasicBlock) := do
  let n := insns.length
  let insnToBb ← bbStarts.zipIdx.foldlM (fillInsnToBb n bbStarts) (List.replicate n 0)
  bbStarts.zipIdx.foldlM (pushBlock insns bbStarts insnToBb) []

/-! ### Phase 2: dataflow analysis -/

/-- `R10` is read-only. -/
def checkWriteDst (pc : ℕ) (dst : BpfReg) : Rust VerifyError Unit :=
  if dst = BpfReg.r10 then fail (.writeToR10 pc) else pure ()

/-- A register that is read must be initialised. -/
def checkRegRead (pc : ℕ) (reg : BpfReg) (state : RegFile) : Rust VerifyError Unit :=
  if state.isInit reg then pure () else fail (.uninitializedRegRead pc reg)

/-- The same for a second operand. -/
def checkSourceRead (pc : ℕ) (src : Source) (state : RegFile) : Rust VerifyError Unit :=
  match src with
  | .reg r => checkRegRead pc r state
  | .imm _ => pure ()

/-- Stack offsets from `R10` must lie in `[-512, 0)`. -/
def checkStackIfFp (pc : ℕ) (base : BpfReg) (off : I16) : Rust VerifyError Unit :=
  if base = BpfReg.r10 then
    if 0 ≤ off.toInt ∨ off.toInt < -(stackSize : ℤ) then fail (.stackOutOfBounds pc off)
    else pure ()
  else
    pure ()

/-- Check the reads and writes of the instruction at `pc` and update `state`. -/
def checkAndUpdateRegs (insns : List Insn) (pc : ℕ) (state : RegFile) :
    Rust VerifyError RegFile := do
  let insn ← index insns pc
  match insn with
  | .alu64 op dst src | .alu32 op dst src =>
    checkWriteDst pc dst
    checkSourceRead pc src state
    -- for non-MOV, `dst` is also read
    if op ≠ .mov then checkRegRead pc dst state
    pure (state.markInit dst)
  | .load _ dst src off =>
    checkWriteDst pc dst
    checkRegRead pc src state
    checkStackIfFp pc src off
    pure (state.markInit dst)
  | .storeReg _ dst src off =>
    checkRegRead pc dst state
    checkRegRead pc src state
    checkStackIfFp pc dst off
    pure state
  | .storeImm _ dst off _ =>
    checkRegRead pc dst state
    checkStackIfFp pc dst off
    pure state
  | .loadImm64 dst _ =>
    checkWriteDst pc dst
    pure (state.markInit dst)
  | .jmpCond _ dst src _ | .jmpCond32 _ dst src _ =>
    checkRegRead pc dst state
    checkSourceRead pc src state
    pure state
  | .ja _ => pure state
  | .call _ =>
    -- R0 is the return value, R1-R5 are clobbered
    pure ([BpfReg.r1, BpfReg.r2, BpfReg.r3, BpfReg.r4, BpfReg.r5].foldl RegFile.markUninit
      (state.markInit BpfReg.r0))
  | .tailCall => pure state
  | .exit =>
    checkRegRead pc BpfReg.r0 state
    pure state
  | .atomic _ _ dst src off =>
    checkRegRead pc dst state
    checkRegRead pc src state
    checkStackIfFp pc dst off
    pure state
  | .endian _ _ dst =>
    checkWriteDst pc dst
    checkRegRead pc dst state
    pure (state.markInit dst)

/-- Simulate the instructions of `[start, stop)`. -/
def simulate (insns : List Insn) (start stop : ℕ) (state : RegFile) : Rust VerifyError RegFile :=
  (List.range' start (stop - start)).foldlM (fun s pc => checkAndUpdateRegs insns pc s) state

/-- Merge `state` into the successor `succIdx`; the flag records a change. -/
def propagate (state : RegFile) (acc : List BasicBlock × Bool) (succIdx : ℕ) :
    Rust VerifyError (List BasicBlock × Bool) := do
  let (bbs, changed) := acc
  let succ ← index bbs succIdx
  if succ.reachable then
    let merged := succ.regStateIn.merge state
    if merged.equals succ.regStateIn then pure (bbs, changed)
    else
      let bbs ← setAt bbs succIdx { succ with regStateIn := merged }
      pure (bbs, true)
  else
    let bbs ← setAt bbs succIdx { succ with reachable := true, regStateIn := state }
    pure (bbs, true)

/-- Loop body of a pass: simulate the block `bbIdx` and propagate to its successors. -/
def flowBlock (insns : List Insn) (acc : List BasicBlock × Bool) (bbIdx : ℕ) :
    Rust VerifyError (List BasicBlock × Bool) := do
  let bb ← index acc.1 bbIdx
  if bb.reachable then
    let state ← simulate insns bb.start bb.stop bb.regStateIn
    bb.successors.foldlM (propagate state) acc
  else
    pure acc

/-- One pass over all blocks. -/
def flowPass (insns : List Insn) (bbs : List BasicBlock) :
    Rust VerifyError (List BasicBlock × Bool) :=
  (List.range bbs.length).foldlM (flowBlock insns) (bbs, false)

/-- `while changed`, with the number of passes left. -/
def dataflowLoop (insns : List Insn) : ℕ → List BasicBlock → Rust VerifyError (List BasicBlock)
  | 0, _ => fail (.backEdgeBudgetExceeded 0)
  | k + 1, bbs => do
    let (bbs, changed) ← flowPass insns bbs
    if changed then dataflowLoop insns k bbs else pure bbs

/-- Propagate register states until nothing changes, in a limited number of passes. -/
def dataflowAnalysis (insns : List Insn) (bbs : List BasicBlock) :
    Rust VerifyError (List BasicBlock) :=
  dataflowLoop insns maxBackEdgeTraversals bbs

/-! ### Phase 3: reachability -/

/-- Loop body of `checkExitReachability`; the flag is `has_exit`. -/
def checkBlock (insns : List Insn) (hasExit : Bool) (bb : BasicBlock) :
    Rust VerifyError Bool :=
  if ¬ bb.reachable then fail (.unreachableCode bb.start)
  else do
    let lastPc ← usizeSub bb.stop 1
    let lastInsn ← index insns lastPc
    let hasExit := if lastInsn = .exit then true else hasExit
    if bb.successors = [] ∧ lastInsn ≠ .exit ∧ lastInsn ≠ .tailCall then
      fail (.fallthroughAfterExit lastPc)
    else
      pure hasExit

/-- Every block is reachable and ends well, and some block exits. -/
def checkExitReachability (insns : List Insn) (bbs : List BasicBlock) : Rust VerifyError Unit := do
  let hasExit ← bbs.foldlM (checkBlock insns) false
  if hasExit then pure () else fail .noExitInstruction

/-- Verify a decoded program; on success the number of basic blocks. -/
def verifyProgram (insns : List Insn) : Rust VerifyError ℕ :=
  if insns = [] then fail .emptyProgram
  else do
    let bbStarts ← findBbStarts insns
    let bbs ← buildCfg insns bbStarts
    let analyzed ← dataflowAnalysis insns bbs
    checkExitReachability insns analyzed
    pure analyzed.length

end NVMirror
