import Wamrx.Memory
import Wamrx.Proofs.MemoryLookup
import Wamrx.Proofs.MemoryTypeRoundTrip

/-!
# `Wamrx.Proofs.MemoryViews`: the views of a memory agree in every state

Three sources describe one memory: the limits parsed from the bytes of its module, the product
of two counters of WAMR, and the slice of its bytes.

* `memoryInv_instantiate`, `memoryInv_step`: in both layouts, and under every `memory.grow`,
  the product is the true number of bytes, within the declared limits.
* `byteLen_eq`: so the multiplication never saturates.
* `memory_views`: every handle of every state sees the same memory.
-/

set_option autoImplicit false

namespace Wamrx.Proofs

open Support

/-- The limits that a declared memory type can have. -/
structure ValidLimits (ty : MemoryType) : Prop where
  minimum_le : ty.minimum ≤ maxPages
  maximum_le : ∀ m, ty.maximum = some m → ty.minimum ≤ m ∧ m ≤ maxPages

/-- The most pages a memory of the type may have. -/
def pageLimit (ty : MemoryType) : Nat := ty.maximum.getD maxPages

theorem ValidLimits.pageLimit_bounds {ty : MemoryType} (h : ValidLimits ty) :
    ty.minimum ≤ pageLimit ty ∧ pageLimit ty ≤ maxPages := by
  unfold pageLimit
  cases hm : ty.maximum with
  | none => exact ⟨h.minimum_le, Nat.le_refl _⟩
  | some m => exact h.maximum_le m hm

/-- The pages of a memory of the type after the granted requests. -/
def pagesOf (ty : MemoryType) (granted : List Nat) : Nat := ty.minimum + granted.sum

/-- The invariant of a memory of the declared type. -/
structure MemoryInv (ty : MemoryType) (s : MemoryRun) : Prop where
  limit_eq : s.limit = pageLimit ty
  bytes_eq : s.inst.curPageCount * s.inst.bytesPerPage = pagesOf ty s.granted * wasmPageSize
  pages_le : pagesOf ty s.granted ≤ pageLimit ty
  /-- A memory that grows is not folded. -/
  unfolded : s.grows = true →
    s.inst.curPageCount = pagesOf ty s.granted ∧ s.inst.bytesPerPage = wasmPageSize

/-- Both layouts hold `n` pages. -/
theorem memoryInv_instantiate {ty : MemoryType} (h : ValidLimits ty) (grows : Bool)
    (base : Nat) (hbase : base = 0 → ty.minimum = 0) :
    MemoryInv ty (MemoryRun.instantiate ty grows base hbase) := by
  have hle : pagesOf ty [] ≤ pageLimit ty := h.pageLimit_bounds.1
  unfold MemoryRun.instantiate
  by_cases hfold : grows = false ∧ ty.minimum < maxPages
  · simp only [if_pos hfold]
    refine ⟨rfl, ?_, hle, ?_⟩
    -- One page of `n * 65536` bytes, or none.
    · show (if ty.minimum = 0 then 0 else 1) * (ty.minimum * wasmPageSize)
        = ty.minimum * wasmPageSize
      by_cases hzero : ty.minimum = 0
      · rw [hzero, Nat.zero_mul, Nat.mul_zero]
      · rw [if_neg hzero, Nat.one_mul]
    · intro hg
      rw [hfold.1] at hg
      cases hg
  · simp only [if_neg hfold]
    exact ⟨rfl, rfl, hle, fun _ => ⟨rfl, rfl⟩⟩

theorem growPages_grows : GrowsByPages growPages where
  refused _ _ _ hlimit := if_pos hlimit
  granted limit inst req inst' h := by
    unfold growPages at h
    split at h
    · cases h
    · split at h
      · rename_i hzero
        cases h
        exact ⟨by rw [hzero, Nat.add_zero], rfl⟩
      · obtain ⟨addr, -, rfl⟩ := Option.map_eq_some_iff.mp h
        exact ⟨rfl, rfl⟩

/-- Every `memory.grow`, granted or refused, keeps the invariant. -/
theorem memoryInv_step {grow : Grow} (hgrow : GrowsByPages grow) {ty : MemoryType} (s : MemoryRun)
    (req : GrowRequest) (s' : MemoryRun) (h : MemoryInv ty s) (hs : s.step grow req = some s') :
    MemoryInv ty s' := by
  unfold MemoryRun.step at hs
  split at hs
  · cases hs
  rename_i hgrows
  cases hinst : grow s.limit s.inst req with
  | none =>
    rw [hinst] at hs
    cases hs
    exact h
  | some inst =>
    rw [hinst] at hs
    cases hs
    have hlimit : ¬ s.limit < s.inst.curPageCount + req.increment := fun hlt => by
      rw [hgrow.refused _ _ _ hlt] at hinst
      cases hinst
    obtain ⟨hcount, hper'⟩ := hgrow.granted _ _ _ _ hinst
    -- A memory that can grow is not folded, so its page count is its size.
    obtain ⟨hpages, hper⟩ := h.unfolded (by simpa using hgrows)
    have hsum : s.inst.curPageCount + req.increment
        = pagesOf ty (s.granted ++ [req.increment]) := by
      rw [hpages, pagesOf, pagesOf, List.sum_append, List.sum_singleton, Nat.add_assoc]
    refine ⟨h.limit_eq, ?_, ?_, fun _ => ⟨hcount.trans hsum, hper'.trans hper⟩⟩
    · show inst.curPageCount * inst.bytesPerPage
        = pagesOf ty (s.granted ++ [req.increment]) * wasmPageSize
      rw [hcount, hper', hsum, hper]
    · show pagesOf ty (s.granted ++ [req.increment]) ≤ pageLimit ty
      rw [← hsum, ← h.limit_eq]
      exact Nat.not_lt.mp hlimit

/-- The length in bytes: nothing saturates, and it fits a 64-bit `usize`. -/
theorem byteLen_eq {ty : MemoryType} (hty : ValidLimits ty) {s : MemoryRun}
    (h : MemoryInv ty s) :
    Memory.byteLen 64 s.inst = pagesOf ty s.granted * wasmPageSize ∧
      s.inst.curPageCount * s.inst.bytesPerPage < 2 ^ 64 := by
  have hpages : pagesOf ty s.granted ≤ 65536 := Nat.le_trans h.pages_le hty.pageLimit_bounds.2
  have hlt : pagesOf ty s.granted * wasmPageSize < 2 ^ 64 - 1 := by
    have := Nat.mul_le_mul_right wasmPageSize hpages
    -- 4 GiB at most.
    have : 65536 * wasmPageSize < 2 ^ 64 - 1 := by decide
    omega
  rw [Memory.byteLen, saturatingMul, h.bytes_eq, Nat.min_eq_left (Nat.le_of_lt hlt)]
  exact ⟨Nat.mod_eq_of_lt (by omega), by omega⟩

/-- The slice over the memory has the length of the memory, also when its base is null. -/
theorem data_len (inst : MemoryInst) :
    (Memory.data 64 inst).len = Memory.byteLen 64 inst := by
  unfold Memory.data
  split
  · rename_i hnull
    rw [Memory.byteLen, saturatingMul, inst.base_ne_null hnull]
    rfl
  · rfl

/-- `get_memory` on an exported memory of a module with a parsed type. -/
theorem getMemory_ok {exports : List Export} {name : List UInt8} (inst : MemoryInst)
    (ty : MemoryType) (hexport : hasExportedMemory exports name = true) :
    getMemory exports (some inst) (some ty) name = .ok ⟨ty⟩ := by
  rcases getMemory_cases exports (some inst) (some ty) name with
    ⟨-, -, ty', hty, hget⟩ | ⟨hnone, -⟩
  · cases hty
    exact hget
  · simp [hexport] at hnone

/-- A handle carries the type that was stored in the module. -/
theorem ty_of_getMemory {exports : List Export} {name : List UInt8} {lookup : Option MemoryInst}
    {ty : MemoryType} {mem : Memory}
    (h : getMemory exports lookup (some ty) name = .ok mem) : mem.ty = ty := by
  rcases getMemory_cases exports lookup (some ty) name with
    ⟨-, -, ty', hty, hget⟩ | ⟨-, hget⟩ <;> rw [hget] at h <;> cases h
  exact (Option.some.inj hty).symm

/-- What a handle sees of a memory in one state. -/
structure Views (ty : MemoryType) (mem : Memory) (s : MemoryRun) : Prop where
  ty_eq : mem.ty = ty
  size_eq : Memory.size 64 s.inst = ty.minimum + s.granted.sum
  data_len : (Memory.data 64 s.inst).len = Memory.size 64 s.inst * wasmPageSize
  dataMut_len : (Memory.dataMut 64 s.inst).len = Memory.size 64 s.inst * wasmPageSize
  minimum_le : ty.minimum ≤ Memory.size 64 s.inst
  le_maximum : ∀ m, ty.maximum = some m → Memory.size 64 s.inst ≤ m
  not_saturated : s.inst.curPageCount * s.inst.bytesPerPage < 2 ^ 64

/-- The invariant gives every handle of the type the right views. -/
theorem views_of_inv {ty : MemoryType} (hty : ValidLimits ty) {s : MemoryRun}
    (h : MemoryInv ty s) {mem : Memory} (hmem : mem.ty = ty) : Views ty mem s := by
  obtain ⟨hbytes, hsat⟩ := byteLen_eq hty h
  have hsize : Memory.size 64 s.inst = ty.minimum + s.granted.sum := by
    rw [Memory.size, hbytes, Nat.mul_div_cancel _ (by decide)]
    rfl
  have hlen : (Memory.data 64 s.inst).len = Memory.size 64 s.inst * wasmPageSize := by
    rw [data_len, hbytes, hsize]
    rfl
  refine ⟨hmem, hsize, hlen, hlen, by omega, fun m hm => ?_, hsat⟩
  have := h.pages_le
  rw [pageLimit, hm] at this
  exact hsize.trans_le this

/-- For every well-formed module with a memory of the type `ty` in its memory section, in either
layout of WAMR, for every rule of WAMR that grows by pages, and after every finite run of
`memory.grow` requests: `get_memory` finds the
memory under each of its export names, and every handle ever taken (after the requests `pre`)
has the right views of the memory as it is now (after `post`, too). -/
theorem memory_views (m : WasmModule) (hsize : m.bytes.length ≤ isizeMax 64)
    (ty : MemoryType) (hdecl : m.declaredMemory = some ty) (hty : ValidLimits ty)
    (exports : List Export) (grows : Bool) (base : Nat) (hbase : base = 0 → ty.minimum = 0)
    (grow : Grow) (hgrow : GrowsByPages grow) (pre post : List GrowRequest) (s s' : MemoryRun)
    (hpre : run (MemoryRun.step grow) (MemoryRun.instantiate ty grows base hbase) pre = some s)
    (hpost : run (MemoryRun.step grow) s post = some s') :
    ∃ memoryType, parseMemoryType 64 m.bytes = .ofOption memoryType ∧
      (∀ name, hasExportedMemory exports name = true → 0 ∉ name →
        ∃ mem, getMemory exports (some s.inst) memoryType name = .ok mem) ∧
      (∀ name mem, getMemory exports (some s.inst) memoryType name = .ok mem →
        Views ty mem s') := by
  have hparse := parseMemoryType_of_length_lt m (lt_two_pow_of_le_isizeMax hsize)
  have hinv : MemoryInv ty s :=
    run_inv (MemoryInv ty) (memoryInv_step hgrow) (memoryInv_instantiate hty grows base hbase) hpre
  have hinv' : MemoryInv ty s' := run_inv (MemoryInv ty) (memoryInv_step hgrow) hinv hpost
  rw [hdecl] at hparse
  refine ⟨some ty, hparse, ?_, ?_⟩
  · intro name hexport _
    exact ⟨⟨ty⟩, getMemory_ok s.inst ty hexport⟩
  · intro name mem hmem
    exact views_of_inv hty hinv' (ty_of_getMemory hmem)

/-- `(memory 2 300)` grows by 3, fails to grow by 400, fails an allocation, and grows by 1. -/
def growRequests : List GrowRequest :=
  [⟨3, some ⟨8, by decide⟩⟩, ⟨400, some ⟨16, by decide⟩⟩, ⟨5, none⟩, ⟨1, some ⟨24, by decide⟩⟩]

/-- Two of the four requests are granted, so the memory has six pages. -/
theorem memory_views_growRequests :
    ∃ s, run (MemoryRun.step growPages) (MemoryRun.instantiate ⟨2, some 300⟩ true 8 (by decide))
        growRequests = some s ∧
      s.granted = [3, 1] ∧
      ∃ memoryType mem, getMemory [⟨.memory, [0x6d]⟩] (some s.inst) memoryType [0x6d] = .ok mem ∧
        Views ⟨2, some 300⟩ mem s ∧ Memory.size 64 s.inst = 6 := by
  obtain ⟨s, hs⟩ := Option.isSome_iff_exists.mp (show (run (MemoryRun.step growPages)
    (MemoryRun.instantiate ⟨2, some 300⟩ true 8 (by decide)) growRequests).isSome by decide)
  obtain ⟨memoryType, -, hget, hviews⟩ := memory_views paddedModule (by decide) ⟨2, some 300⟩
    rfl ⟨by decide, by simp [maxPages]⟩ [⟨.memory, [0x6d]⟩] true 8 (by decide) growPages
    growPages_grows growRequests [] s s hs rfl
  obtain ⟨mem, hmem⟩ := hget [0x6d] (by decide) (by decide)
  have hgranted : s.granted = [3, 1] := by
    cases hs
    rfl
  have hview := hviews _ _ hmem
  refine ⟨s, hs, hgranted, memoryType, mem, hmem, hview, ?_⟩
  rw [hview.size_eq, hgranted]
  rfl

end Wamrx.Proofs
