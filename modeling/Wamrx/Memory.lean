import Wamrx.Error
import Wamrx.ModuleBytes
import Wamrx.Support.Run

/-!
# `Wamrx.Memory`: exported memories and their views

`Memory` of `memory.rs` and `Instance::get_memory` of `instance.rs`. A handle carries the
declared type, which comes from the bytes of the module, and asks WAMR for everything else:
`MemoryInst` is WAMR's memory instance at one moment.

`MemoryRun` is a memory under the `memory.grow` requests of its module. WAMR keeps it in one
of two layouts. A module without a `memory.grow` has its pages folded into a single large one,
unless it has 65536 of them. What WAMR does in a `memory.grow` is a parameter (`Grow`).
`GrowsByPages` says what a result needs to know about it, and `growPages` is one such rule.
-/

set_option autoImplicit false

namespace Wamrx

/-- `WASM_PAGE_SIZE`. -/
def wasmPageSize : Nat := 65536

/-- WAMR's memory instance: two `u64` counters, and the base address (zero is null). The base
is null only when the memory has no bytes. -/
structure MemoryInst where
  curPageCount : Nat
  bytesPerPage : Nat
  base : Nat
  base_ne_null : base = 0 → curPageCount * bytesPerPage = 0

/-- A slice of bytes: its address and its length. -/
structure Slice where
  ptr : Nat
  len : Nat
deriving DecidableEq, Repr

/-- `&[]`: some aligned address that is never read. -/
def Slice.empty : Slice := ⟨1, 0⟩

/-- `u64::saturating_mul`. -/
def saturatingMul (a b : Nat) : Nat := min (a * b) (2 ^ 64 - 1)

/-- A `Memory` handle. Its `inst` is the only memory of the instance, so the methods take it as
it is when they are called. -/
structure Memory where
  ty : MemoryType
deriving DecidableEq, Repr

namespace Memory

/-- `Memory::byte_len`, on a host with pointers of `usizeBits` bits. -/
def byteLen (usizeBits : Nat) (inst : MemoryInst) : Nat :=
  saturatingMul inst.curPageCount inst.bytesPerPage % 2 ^ usizeBits

/-- `Memory::size`, in Wasm pages. -/
def size (usizeBits : Nat) (inst : MemoryInst) : Nat := byteLen usizeBits inst / wasmPageSize

/-- `Memory::data`. -/
def data (usizeBits : Nat) (inst : MemoryInst) : Slice :=
  if inst.base = 0 then Slice.empty else ⟨inst.base, byteLen usizeBits inst⟩

/-- `Memory::data_mut`. -/
def dataMut (usizeBits : Nat) (inst : MemoryInst) : Slice :=
  if inst.base = 0 then Slice.empty else ⟨inst.base, byteLen usizeBits inst⟩

end Memory

/-! ### Finding the memory -/

/-- `wasm_import_export_kind_t`. -/
inductive ExportKind where
  | func
  | table
  | memory
  | global
  | tag
deriving DecidableEq, Repr

/-- One entry of a module's export section. The name is as the section has it. -/
structure Export where
  kind : ExportKind
  name : List UInt8
deriving DecidableEq, Repr

/-- The name as the C string that WAMR reports: it ends at the first NUL. -/
def Export.cName (e : Export) : Name := e.name.takeWhile (· ≠ 0)

/-- `Instance::has_exported_memory`. -/
def hasExportedMemory (exports : List Export) (name : List UInt8) : Bool :=
  exports.any fun e => e.kind = .memory ∧ e.cName = name

/-- `Instance::get_memory`, from the exports of the module, the memory that
`wasm_runtime_lookup_memory` finds, and the type stored in the `Module`. -/
def getMemory (exports : List Export) (lookup : Option MemoryInst)
    (memoryType : Option MemoryType) (name : List UInt8) : Except Error Memory :=
  if ¬ hasExportedMemory exports name then .error (.memoryNotFound name)
  -- `CString::new` refuses a name with a NUL in it.
  else if 0 ∈ name then .error (.memoryNotFound name)
  else
    match lookup with
    | none => .error (.memoryNotFound name)
    | some _ =>
      match memoryType with
      -- The type comes from the bytes of the module, WAMR's own is rewritten.
      | none => .error (.memoryNotFound name)
      | some ty => .ok ⟨ty⟩

/-! ### A memory under `memory.grow` -/

/-- One `memory.grow`: the number of pages, and the address of the grown memory if WAMR can
allocate it. -/
structure GrowRequest where
  increment : Nat
  alloc : Option { addr : Nat // addr ≠ 0 }

/-- The memory of an instance: whether its module contains a `memory.grow` at all, the most
pages it may have, and the increments granted so far. -/
structure MemoryRun where
  inst : MemoryInst
  grows : Bool
  limit : Nat
  granted : List Nat

/-- The most pages that any memory may have. -/
def maxPages : Nat := 65536

/-- What WAMR makes of a memory with this limit in a `memory.grow`, or `none` if it refuses. -/
abbrev Grow := Nat → MemoryInst → GrowRequest → Option MemoryInst

/-- A `memory.grow` past the limit is refused. One that is granted adds the pages, and leaves the
size of a page. -/
structure GrowsByPages (grow : Grow) : Prop where
  refused : ∀ limit inst req, limit < inst.curPageCount + req.increment →
    grow limit inst req = none
  granted : ∀ limit inst req inst', grow limit inst req = some inst' →
    inst'.curPageCount = inst.curPageCount + req.increment ∧
      inst'.bytesPerPage = inst.bytesPerPage

/-- Refuses a request past the limit, and one whose allocation fails. A request for no pages leaves
the memory where it is. -/
def growPages : Grow := fun limit inst req =>
  if limit < inst.curPageCount + req.increment then none
  else if req.increment = 0 then some inst
  else req.alloc.map fun ⟨addr, haddr⟩ =>
    ⟨inst.curPageCount + req.increment, inst.bytesPerPage, addr, fun h => absurd h haddr⟩

namespace MemoryRun

/-- The layout that WAMR gives a memory of the declared type, at the base address `base`. -/
def instantiate (ty : MemoryType) (grows : Bool) (base : Nat)
    (hbase : base = 0 → ty.minimum = 0) : MemoryRun :=
  let n := ty.minimum
  let limit := ty.maximum.getD maxPages
  if grows = false ∧ n < maxPages then
    -- All pages are folded into one.
    { inst := ⟨if n = 0 then 0 else 1, n * wasmPageSize, base,
        fun h => by simp [n, hbase h]⟩
      grows := grows, limit := limit, granted := [] }
  else
    { inst := ⟨n, wasmPageSize, base, fun h => by simp [n, hbase h]⟩
      grows := grows, limit := limit, granted := [] }

/-- One `memory.grow`, which is granted or refused. -/
def step (grow : Grow) (s : MemoryRun) (req : GrowRequest) : Option MemoryRun :=
  if s.grows = false then none
  else
    match grow s.limit s.inst req with
    -- A refused request leaves the memory as it is.
    | none => some s
    | some inst => some { s with inst := inst, granted := s.granted ++ [req.increment] }

end MemoryRun

end Wamrx
