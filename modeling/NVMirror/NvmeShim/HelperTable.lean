import Mathlib.Data.List.Basic
import NVMirror.EbpfCore.Isa

/-!
# The table of helper functions (`crates/nvme-shim/src/lib.rs`)

`resolve_foldl_register`: after any sequence of registrations the table is the finite map of their
last entries, on the helpers it has room for.
-/

namespace NVMirror

/-- Number of helper functions. -/
def numHelpers : ℕ := 256

/-- Helper function table: maps eBPF helper ids to function pointers. -/
structure HelperTable where
  entries : Fin numHelpers → Option U64

namespace HelperTable

/-- No helper is registered. -/
def new : HelperTable where
  entries _ := none

/-- Enter a helper; ids the table has no room for are ignored. -/
def register (t : HelperTable) (id : U32) (addr : U64) : HelperTable :=
  if h : id.toNat < numHelpers then
    { entries := Function.update t.entries ⟨id.toNat, h⟩ (some addr) }
  else t

/-- The address of a helper, if it is registered. -/
def resolve (t : HelperTable) (id : U32) : Option U64 :=
  if h : id.toNat < numHelpers then t.entries ⟨id.toNat, h⟩ else none

/-- The address the last registration of a helper gives. -/
def lastAddr (registered : List (U32 × U64)) (id : U32) : Option U64 :=
  (registered.reverse.find? fun r => r.1 = id).map Prod.snd

theorem lastAddr_append (registered : List (U32 × U64)) (r : U32 × U64) (id : U32) :
    lastAddr (registered ++ [r]) id = if r.1 = id then some r.2 else lastAddr registered id := by
  unfold lastAddr
  rw [List.reverse_append, List.reverse_singleton, List.singleton_append]
  by_cases heq : r.1 = id
  · rw [List.find?_cons_of_pos (by simpa using heq), if_pos heq]
    rfl
  · rw [List.find?_cons_of_neg (by simpa using heq), if_neg heq]

theorem resolve_new (id : U32) : new.resolve id = none := by
  unfold resolve
  split_ifs <;> rfl

/-- A registration changes what its own id resolves to, if the table has room for it. -/
theorem resolve_register (t : HelperTable) (id id' : U32) (addr : U64) :
    (t.register id addr).resolve id' =
      if id = id' ∧ id.toNat < numHelpers then some addr else t.resolve id' := by
  by_cases hroom : id.toNat < numHelpers
  · rw [register, dif_pos hroom]
    unfold resolve
    dsimp only
    by_cases heq : id = id'
    · subst heq
      rw [dif_pos hroom, if_pos ⟨rfl, hroom⟩, Function.update_self]
    · rw [if_neg fun h => heq h.1]
      split_ifs with hroom'
      · refine Function.update_of_ne (fun h => heq ?_) _ _
        have hval : id'.toNat = id.toNat := congrArg (fun i : Fin numHelpers => i.val) h
        exact BitVec.eq_of_toNat_eq hval.symm
      · rfl
  · rw [register, dif_neg hroom, if_neg fun h => hroom h.2]

/-- **After any registrations** an id resolves to the address it was last registered with, if it is
below the number of helpers, and else to nothing. -/
theorem resolve_foldl_register (registered : List (U32 × U64)) (id : U32) :
    (registered.foldl (fun t r => t.register r.1 r.2) new).resolve id =
      if id.toNat < numHelpers then lastAddr registered id else none := by
  induction registered using List.reverseRecOn with
  | nil =>
    rw [List.foldl_nil, resolve_new]
    split_ifs <;> rfl
  | append_singleton registered r ih =>
    rw [List.foldl_append, List.foldl_cons, List.foldl_nil, resolve_register, ih, lastAddr_append]
    by_cases heq : r.1 = id
    · subst heq
      by_cases hroom : r.1.toNat < numHelpers
      · rw [if_pos ⟨rfl, hroom⟩, if_pos hroom, if_pos rfl]
      · rw [if_neg fun h => hroom h.2, if_neg hroom, if_neg hroom]
    · rw [if_neg fun h => heq h.1, if_neg heq]

end HelperTable

end NVMirror
