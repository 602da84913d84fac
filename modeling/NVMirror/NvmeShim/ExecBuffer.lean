import NVMirror.EbpfCore.Isa
import NVMirror.Library.Checked
import NVMirror.Library.Fields

/-!
# Executable buffers (`crates/nvme-shim/src/lib.rs`)

Two buffers for compiled code: `ExecBuffer` in memory from the operating system, and
`FirmwareBuffer`, an array.  The operating system is a parameter `alloc`, which gives the bytes of a
mapping.  A copy past the end of a mapping is undefined behaviour; `copyTo` panics there.

* `Stores`: what a write does to a buffer; `ExecBuffer.stores` and `FirmwareBuffer.stores` show it
  of both.
* `Stores.writeAll`: after any sequence of writes the buffer holds the last code that fits.
* `ExecBuffer.writeAll_holds`: a new buffer has room for what was asked for, and until a code is
  longer than the mapping both buffers hold the same code.
-/

namespace NVMirror

open Rust

/-- Maximum JIT buffer size (64KB). -/
def maxJitBufferSize : ℕ := 64 * 1024

/-- Guard page size (4KB). -/
def guardPageSize : ℕ := 4096

/-- `copy_nonoverlapping` to the start of a mapping. -/
def copyTo {ε : Type} (mem code : List U8) : Rust ε (List U8) :=
  if code.length ≤ mem.length then .ok (code ++ mem.drop code.length) else panic

/-- Platform-specific executable buffer for JIT'd code. -/
structure ExecBuffer where
  /-- The mapping at `ptr`. -/
  mem : List U8
  size : ℕ
  codeLen : ℕ

namespace ExecBuffer

/-- Allocate a new executable buffer. -/
def new (alloc : ℕ → Rust String (List U8)) (size : ℕ) : Rust String ExecBuffer :=
  if maxJitBufferSize < size then fail "JIT buffer exceeds maximum size"
  else do
    -- round up to a page boundary
    let size ← usizeAdd size guardPageSize
    let size ← usizeSub size 1
    let mask ← usizeSub guardPageSize 1
    let size := (BitVec.ofNat 64 size &&& ~~~(BitVec.ofNat 64 mask)).toNat
    let mem ← alloc size
    pure { mem, size, codeLen := 0 }

/-- Write JIT'd code into the buffer. -/
def writeCode (buf : ExecBuffer) (code : List U8) : Rust String ExecBuffer :=
  if buf.size < code.length then fail "Code exceeds buffer capacity"
  else do
    let mem ← copyTo buf.mem code
    pure { buf with mem, codeLen := code.length }

end ExecBuffer

/-- Firmware-mode buffer: a static array. -/
structure FirmwareBuffer where
  buf : List U8
  codeLen : ℕ

namespace FirmwareBuffer

/-- All zeros. -/
def new : FirmwareBuffer where
  buf := List.replicate maxJitBufferSize 0
  codeLen := 0

/-- Write JIT'd code into the array; past its end the slice panics. -/
def writeCode (b : FirmwareBuffer) (code : List U8) : Rust String FirmwareBuffer :=
  if maxJitBufferSize < code.length then fail "Code exceeds buffer capacity"
  else do
    let buf ← copyTo b.buf code
    pure { buf, codeLen := code.length }

end FirmwareBuffer

/-! ### One write -/

/-- The mapping has `limit` bytes and begins with `code`. -/
structure Holds (mem : List U8) (codeLen limit : ℕ) (code : List U8) : Prop where
  length : mem.length = limit
  len : codeLen = code.length
  stored : mem.take codeLen = code

/-- Nothing is written yet. -/
theorem Holds.empty {mem : List U8} {limit : ℕ} (h : mem.length = limit) : Holds mem 0 limit [] :=
  ⟨h, rfl, rfl⟩

/-- A copy stays in the mapping. -/
theorem Holds.copyTo {ε : Type} {mem code code' : List U8} {codeLen limit : ℕ}
    (h : Holds mem codeLen limit code) (hle : code'.length ≤ limit) :
    ∃ mem', NVMirror.copyTo (ε := ε) mem code' = .ok mem' ∧
      Holds mem' code'.length limit code' := by
  have hroom : code'.length ≤ mem.length := hle.trans_eq h.length.symm
  refine ⟨_, if_pos hroom, ?_, rfl, List.take_left⟩
  rw [List.length_append, List.length_drop, ← h.length]
  omega

/-- The code in a buffer. -/
def ExecBuffer.Holds (limit : ℕ) (buf : ExecBuffer) (code : List U8) : Prop :=
  buf.size = limit ∧ NVMirror.Holds buf.mem buf.codeLen limit code

/-- The code in an array. -/
def FirmwareBuffer.Holds (b : FirmwareBuffer) (code : List U8) : Prop :=
  NVMirror.Holds b.buf b.codeLen maxJitBufferSize code

/-- A code that fits replaces the one before; the others are refused. -/
structure Stores {σ : Type} (write : σ → List U8 → Rust String σ) (limit : ℕ)
    (H : σ → List U8 → Prop) : Prop where
  fits : ∀ {s code code'}, H s code → code'.length ≤ limit →
    ∃ s', write s code' = .ok s' ∧ H s' code'
  refused : ∀ {s code code'}, H s code → limit < code'.length → ∃ e, write s code' = fail e

theorem ExecBuffer.stores (limit : ℕ) :
    Stores ExecBuffer.writeCode limit (ExecBuffer.Holds limit) where
  fits := by
    rintro buf code code' ⟨rfl, h⟩ hle
    obtain ⟨mem', hmem', hholds⟩ := h.copyTo (ε := String) hle
    refine ⟨⟨mem', buf.size, code'.length⟩, ?_, rfl, hholds⟩
    rw [writeCode, if_neg (not_lt.2 hle), hmem']
    rfl
  refused := by
    rintro buf code code' ⟨rfl, -⟩ hlt
    exact ⟨_, if_pos hlt⟩

theorem FirmwareBuffer.stores :
    Stores FirmwareBuffer.writeCode maxJitBufferSize FirmwareBuffer.Holds where
  fits := by
    intro b code code' h hle
    obtain ⟨buf', hbuf', hholds⟩ := Holds.copyTo (ε := String) h hle
    refine ⟨⟨buf', code'.length⟩, ?_, hholds⟩
    rw [writeCode, if_neg (not_lt.2 hle), hbuf']
    rfl
  refused _ hlt := ⟨_, if_pos hlt⟩

/-! ### Sequences of writes -/

/-- A call whose error is ignored. -/
def attempt {σ ε : Type} (s : σ) : Rust ε σ → Rust Empty σ
  | .ok s' => .ok s'
  | .error (.err _) => .ok s
  | .error .panic => panic

/-- Writes one after the other. -/
def writeAll {σ : Type} (write : σ → List U8 → Rust String σ) (s : σ) (codes : List (List U8)) :
    Rust Empty σ :=
  codes.foldlM (fun s code => attempt s (write s code)) s

/-- The last code of a sequence that has at most `limit` bytes. -/
def lastFitting (limit : ℕ) (codes : List (List U8)) (code : List U8) : List U8 :=
  codes.foldl (fun code code' => if code'.length ≤ limit then code' else code) code

/-- **After any writes** the last code that fits is there. -/
theorem Stores.writeAll {σ : Type} {write : σ → List U8 → Rust String σ} {limit : ℕ}
    {H : σ → List U8 → Prop} (h : Stores write limit H) {s : σ} {code : List U8} (hs : H s code)
    (codes : List (List U8)) :
    ∃ s', NVMirror.writeAll write s codes = .ok s' ∧ H s' (lastFitting limit codes code) := by
  induction codes generalizing s code with
  | nil => exact ⟨s, rfl, hs⟩
  | cons code' codes ih =>
    unfold NVMirror.writeAll lastFitting at *
    rw [List.foldlM_cons, List.foldl_cons]
    by_cases hle : code'.length ≤ limit
    · obtain ⟨s', hwrite, hs'⟩ := h.fits hs hle
      rw [hwrite, if_pos hle]
      exact ih hs'
    · obtain ⟨e, hwrite⟩ := h.refused hs (not_le.1 hle)
      rw [hwrite, if_neg hle]
      exact ih hs

/-- Sequences of codes that all fit. -/
theorem lastFitting_congr {limit limit' : ℕ} {codes : List (List U8)}
    (h : ∀ code ∈ codes, code.length ≤ limit) (h' : ∀ code ∈ codes, code.length ≤ limit')
    (code : List U8) : lastFitting limit codes code = lastFitting limit' codes code := by
  unfold lastFitting
  induction codes generalizing code with
  | nil => rfl
  | cons code' codes ih =>
    rw [List.foldl_cons, List.foldl_cons, if_pos (h code' List.mem_cons_self),
      if_pos (h' code' List.mem_cons_self)]
    exact ih (fun c hc => h c (List.mem_cons_of_mem _ hc))
      (fun c hc => h' c (List.mem_cons_of_mem _ hc)) code'

/-! ### New buffers -/

/-- The operating system maps as many bytes as it is asked for. -/
def Maps (alloc : ℕ → Rust String (List U8)) : Prop :=
  ∀ size mem, alloc size = .ok mem → mem.length = size

/-- The bytes of whole pages. -/
def pages (size : ℕ) : ℕ := (size + 4095) / 4096 * 4096

theorem ExecBuffer.new_eq (alloc : ℕ → Rust String (List U8)) {size : ℕ}
    (hsize : size ≤ maxJitBufferSize) :
    ExecBuffer.new alloc size = alloc (pages size) >>= fun mem => pure ⟨mem, pages size, 0⟩ := by
  have hmax : maxJitBufferSize = 65536 := rfl
  have hpage : guardPageSize = 4096 := rfl
  have hround : (BitVec.ofNat 64 (size + 4096 - 1) &&& ~~~(BitVec.ofNat 64 (4096 - 1))).toNat =
      pages size := by
    have hmask := Fields.toNat_and_not_mask (BitVec.ofNat 64 (size + 4096 - 1)) 12
    rw [BitVec.toNat_ofNat, Nat.mod_eq_of_lt (by omega)] at hmask
    exact hmask
  rw [new, if_neg (by omega), hpage, usizeAdd_of_lt (by omega), ok_bind,
    usizeSub_of_le (by omega), ok_bind, usizeSub_of_le (by decide), ok_bind]
  dsimp only
  rw [hround]

/-- **Executable buffers.**  A new buffer has whole pages, at most `MAX_JIT_BUFFER_SIZE` bytes and
room for what was asked for.  No sequence of writes leaves its mapping, and the buffer then holds
the last code that has room; the array of the firmware holds the same code as long as no code is
longer than was asked for. -/
theorem ExecBuffer.writeAll_holds {alloc : ℕ → Rust String (List U8)} (halloc : Maps alloc)
    {size : ℕ} {buf : ExecBuffer} (hnew : ExecBuffer.new alloc size = .ok buf)
    (codes : List (List U8)) :
    size ≤ buf.size ∧ buf.size ≤ maxJitBufferSize ∧ guardPageSize ∣ buf.size ∧
      ∃ buf' b', writeAll writeCode buf codes = .ok buf' ∧
        writeAll FirmwareBuffer.writeCode .new codes = .ok b' ∧
        Holds buf.size buf' (lastFitting buf.size codes []) ∧
        b'.Holds (lastFitting maxJitBufferSize codes []) ∧
        ((∀ code ∈ codes, code.length ≤ size) →
          buf'.mem.take buf'.codeLen = b'.buf.take b'.codeLen) := by
  have hmax : maxJitBufferSize = 65536 := rfl
  by_cases hsize : size ≤ maxJitBufferSize
  · rw [ExecBuffer.new_eq alloc hsize] at hnew
    obtain ⟨mem, hmem, hnew⟩ := bind_eq_ok.1 hnew
    cases hnew
    have hle : size ≤ pages size ∧ pages size ≤ maxJitBufferSize := by
      unfold pages
      omega
    obtain ⟨buf', hbuf', hholds⟩ := (ExecBuffer.stores (pages size)).writeAll
      (s := ⟨mem, pages size, 0⟩) ⟨rfl, Holds.empty (halloc _ _ hmem)⟩ codes
    obtain ⟨b', hb', hholds'⟩ := FirmwareBuffer.stores.writeAll (s := .new)
      (Holds.empty List.length_replicate) codes
    refine ⟨hle.1, hle.2, Nat.dvd_mul_left _ _, buf', b', hbuf', hb', hholds, hholds',
      fun hfit => ?_⟩
    rw [hholds.2.stored, hholds'.stored]
    exact lastFitting_congr (fun code hc => (hfit code hc).trans hle.1)
      (fun code hc => (hfit code hc).trans hsize) []
  · rw [new, if_pos (not_le.1 hsize)] at hnew
    cases hnew

/-- `ExecBuffer.writeAll_holds` for a buffer of one page and two codes. -/
theorem ExecBuffer.writeAll_holds_onePage : ∃ buf buf' b',
    ExecBuffer.new (fun size => .ok (List.replicate size 0)) 8 = .ok buf ∧
      writeAll writeCode buf [[1, 2, 3], [4]] = .ok buf' ∧
      writeAll FirmwareBuffer.writeCode .new [[1, 2, 3], [4]] = .ok b' ∧ buf.size = 4096 ∧
      buf'.mem.take buf'.codeLen = b'.buf.take b'.codeLen := by
  have halloc : Maps fun size => .ok (List.replicate size 0) := by
    intro size mem h
    cases h
    exact List.length_replicate
  have hnew := ExecBuffer.new_eq (fun size => .ok (List.replicate size 0))
    (show 8 ≤ maxJitBufferSize by decide)
  obtain ⟨-, -, -, buf', b', hbuf', hb', -, -, heq⟩ :=
    ExecBuffer.writeAll_holds halloc hnew [[1, 2, 3], [4]]
  exact ⟨_, buf', b', hnew, hbuf', hb', rfl, heq (by decide)⟩

end NVMirror
