import NVMirror.Library.Checked
import NVMirror.Library.Simulation
import NVMirror.Library.Bytes
import NVMirror.Library.Words
import NVMirror.Library.Fields
import NVMirror.Library.Leaders
import NVMirror.Library.MustAnalysis
import NVMirror.Library.Reachability
import NVMirror.Library.Until
import NVMirror.Library.RoundRobin
import NVMirror.Library.Draws
import NVMirror.Library.Regions
import NVMirror.Library.XorShift
import NVMirror.Library.Builds
import NVMirror.NvmeShim.HelperTable
import NVMirror.NvmeShim.ExecBuffer
import NVMirror.EbpfCore.Isa
import NVMirror.EbpfCore.Decode
import NVMirror.EbpfCore.Verify
import NVMirror.EbpfCore.Flow
import NVMirror.EbpfCore.Blocks
import NVMirror.EbpfCore.Dataflow
import NVMirror.EbpfCore.Slots
import NVMirror.EbpfCore.Append
import NVMirror.EbpfCore.Wire
import NVMirror.EbpfCore.Encodings
import NVMirror.EbpfCore.StackFrame
import NVMirror.EbpfCore.Exits
import NVMirror.EbpfCore.Precision
import NVMirror.EbpfCore.Passes
import NVMirror.EbpfCore.Convergence
import NVMirror.EbpfCore.Acceptance
import NVMirror.JitEngine.Interpreter
import NVMirror.JitEngine.Comparison
import NVMirror.JitEngine.Arithmetic
import NVMirror.JitEngine.Atomics
import NVMirror.JitEngine.Steps
import NVMirror.JitEngine.Soundness
import NVMirror.JitEngine.Control
import NVMirror.JitEngine.StackBuffer
import NVMirror.JitEngine.Totality
import NVMirror.JitEngine.StackMemory
import NVMirror.JitIr.Ir
import NVMirror.JitIr.Emitter
import NVMirror.JitIr.Emission
import NVMirror.JitRegalloc.Lower
import NVMirror.JitRegalloc.Renaming
import NVMirror.JitRegalloc.Layout
import NVMirror.JitRegalloc.FrameSize
import NVMirror.JitRegalloc.Semantics
import NVMirror.JitRegalloc.Preservation
import NVMirror.JitIr.Image
import NVMirror.JitIr.Listing
import NVMirror.JitRegalloc.FramePaths
import NVMirror.JitRegalloc.Stretches
import NVMirror.JitRegalloc.StackRuns
import NVMirror.JitRegalloc.Execution
import NVMirror.JitRegalloc.Returns
import NVMirror.JitAarch64.Encode
import NVMirror.JitAarch64.Emit
import NVMirror.JitAarch64.Nodes
import NVMirror.JitRiscv.Encode
import NVMirror.JitRiscv.Emit
import NVMirror.JitRiscv.Nodes
import NVMirror.JitRiscv.Machine
import NVMirror.JitRiscv.Decode
import NVMirror.JitRiscv.Line
import NVMirror.JitRiscv.Registers
import NVMirror.JitRiscv.Constants
import NVMirror.JitRiscv.Alu
import NVMirror.JitRiscv.Atomics
import NVMirror.JitRiscv.Branch
import NVMirror.JitRiscv.Frame
import NVMirror.JitRiscv.Program
import NVMirror.JitRiscv.Relocation
import NVMirror.JitRiscv.Immediates
import NVMirror.JitEngine.Compile
import NVMirror.JitEngine.Size
import NVMirror.JitAarch64.Machine
import NVMirror.JitAarch64.Decode
import NVMirror.JitAarch64.Line
import NVMirror.JitAarch64.Alu
import NVMirror.JitAarch64.Branch
import NVMirror.JitAarch64.Relocation
import NVMirror.JitAarch64.Frame
import NVMirror.JitAarch64.Restore
import NVMirror.JitAarch64.Program
import NVMirror.JitAarch64.Full
import NVMirror.JitAarch64.FullWords
import NVMirror.JitAarch64.FullRuns
import NVMirror.JitAarch64.Atomics
import NVMirror.JitAarch64.FullProgram
import NVMirror.JitEngine.Aarch64
import NVMirror.JitEngine.Riscv
import NVMirror.JitEngine.Relocation
import NVMirror.JitEngine.Capacity
import NVMirror.JitEngine.Sized
import NVMirror.JitEngine.Outcome
import NVMirror.JitEngine.StackAccess
import NVMirror.JitEngine.Calls
import NVMirror.JitEngine.MemoryNodes
import NVMirror.JitEngine.Branches
import NVMirror.JitEngine.ByteOrder
import NVMirror.JitEngine.AtomicNodes
import NVMirror.JitEngine.Buffer
import NVMirror.JitEngine.Aarch64Execution
import NVMirror.JitEngine.RiscvExecution
import NVMirror.JitEngine.Builds
import NVMirror.Fuzz.Generator
import NVMirror.Fuzz.Templates
import NVMirror.Fuzz.Programs
import NVMirror.Fuzz.Operands
import NVMirror.Fuzz.Oracle
import NVMirror.Fuzz.Beside
import NVMirror.Fuzz.Differential
import NVMirror.Fuzz.Rng
import NVMirror.Fuzz.Builds
