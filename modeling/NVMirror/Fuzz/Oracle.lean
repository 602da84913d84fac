import NVMirror.Fuzz.Generator
import NVMirror.JitAarch64.Full
import NVMirror.JitEngine.Compile
import NVMirror.JitEngine.Interpreter
import NVMirror.NvmeShim.ExecBuffer

/-!
# The oracle of the fuzzer (`fuzz/src/lib.rs`)

`fuzzOne` generates a program, runs it in the interpreter, compiles it, executes the code, and
compares the results, on an AArch64 host.  The host is a `Host`: memory from the operating system,
and a processor in any state.  Native code may not return, so its execution has a bound `fuel` on
the number of instructions, and no result where that is exceeded.
-/

namespace NVMirror

open Rust

/-- An AArch64 host. -/
structure Host where
  /-- A mapping from the operating system. -/
  alloc : ℕ → Rust String (List U8)
  /-- Registers, flags and memory before a call. -/
  cpu : Aarch64.Cpu
  env : Aarch64.Full.Env

/-- The processor at the first instruction of a function that is called with five zeros. -/
def Host.enter (host : Host) : Aarch64.Machine where
  x r := if r < 5 then 0 else host.cpu.x r
  flags := host.cpu.flags
  mem := host.cpu.mem
  pc := 0

instance (code : List U8) : DecidablePred (Aarch64.AtRet code) := fun m =>
  inferInstanceAs (Decidable ((fetchU32 code m.pc).bind Aarch64.decode = some (.ret 30)))

/-- Execute instructions up to a `RET`; the result is in `X0`. -/
def callNative (env : Aarch64.Full.Env) (code : List U8) :
    ℕ → Aarch64.Machine → Rust Empty (Option U64)
  | 0, _ => pure none
  | fuel + 1, m =>
    if Aarch64.AtRet code m then pure (some (m.x 0))
    else do
      let m ← Aarch64.Full.step env code m
      callNative env code fuel m

/-- Copy code into an executable buffer and call it with five zeros. -/
def executeNative (host : Host) (fuel : ℕ) (code : List U8) : Rust Empty (Option U64) := do
  let buf ← expect (ExecBuffer.new host.alloc code.length)
  let buf ← expect (buf.writeCode code)
  callNative host.env buf.mem fuel host.enter

/-- Why there is no code to execute. -/
inductive FuzzError
  | decode (e : DecodeError)
  | jit (e : JitError)

/-- Result of a single fuzz iteration. -/
inductive FuzzResult
  /-- JIT and interpreter agree. -/
  | pass (interpreterResult : U64)
  /-- JIT compilation failed. -/
  | compileError (e : FuzzError)
  /-- JIT and interpreter disagree. -/
  | mismatch (interpreterResult jitResult : U64) (program : List RawInsn)

/-- Compile a program, execute it, and compare the result. -/
def checkProgram [Profile] (host : Host) (fuel : ℕ) (interpResult : U64) (program : List RawInsn) :
    Rust Empty (Option FuzzResult) :=
  match compile program .aArch64 with
  | .error .panic => panic
  | .error (.err e) => pure (some (.compileError (.jit e)))
  | .ok jitOutput => do
    let jitResult ← executeNative host fuel jitOutput.code
    pure (jitResult.map fun jitResult =>
      if jitResult ≠ interpResult then .mismatch interpResult jitResult program
      else .pass interpResult)

/-- Run one fuzz iteration: generate, compile, execute, compare. -/
def fuzzOne [Profile] {ρ : Type} (nextU64 : ρ → U64 × ρ) (host : Host) (fuel : ℕ) (stackPtr : U64)
    (limit : ℕ) : Gen ρ (Option FuzzResult) := do
  let program ← generateProgram nextU64 limit
  match decodeProgram program with
  | .error .panic => liftM (panic : Rust Empty (Option FuzzResult))
  | .error (.err e) => pure (some (.compileError (.decode e)))
  | .ok insns =>
    let (interpResult, _) ← (run stackPtr insns 10000 .new : Rust Empty _)
    (checkProgram host fuel interpResult program : Rust Empty _)

end NVMirror
