import Wamrx.Memory

/-!
# `Wamrx.LinearMemory`: the bytes of a memory

`MemoryState` is a memory together with the bytes of the process. The module stores through the
base address that WAMR keeps, the host writes through the slice of `Memory::data_mut`, and a
`memory.grow` copies the bytes to another place and leaves garbage behind.

`Contents` says what is meant: a list of bytes that both sides see and write, and that grows by
zeros. It is not translated from the source. `Proofs.memory_contents` relates the two.
-/

set_option autoImplicit false

namespace Wamrx

/-- The bytes of a slice, in a process with these bytes. -/
def Slice.read (sl : Slice) (bytes : Nat → UInt8) : List UInt8 :=
  (List.range sl.len).map fun i => bytes (sl.ptr + i)

/-- One access or one `memory.grow`. `left` is what the process finds outside the memory after it
has moved. -/
inductive MemoryOp where
  | store (offset : Nat) (b : UInt8)
  | hostWrite (i : Nat) (b : UInt8)
  | grow (req : GrowRequest) (left : Nat → UInt8)

/-- `memory_data_size` of WAMR, which its own accesses are checked against. -/
def MemoryInst.dataSize (inst : MemoryInst) : Nat := inst.curPageCount * inst.bytesPerPage

/-- A memory, and the bytes of the process. -/
structure MemoryState where
  mem : MemoryRun
  bytes : Nat → UInt8

namespace MemoryState

/-- Writes one byte of the process. -/
def poke (s : MemoryState) (addr : Nat) (b : UInt8) : MemoryState :=
  { s with bytes := Function.update s.bytes addr b }

/-- The bytes after the memory has moved to `base` and grown to `len` bytes: the old ones, then
zeros. -/
def moved (s : MemoryState) (base len : Nat) (left : Nat → UInt8) (addr : Nat) : UInt8 :=
  if base ≤ addr ∧ addr < base + s.mem.inst.dataSize then
    s.bytes (s.mem.inst.base + (addr - base))
  else if base ≤ addr ∧ addr < base + len then 0
  else left addr

/-- Performs one operation. A store that is out of bounds traps, and a write that is out of bounds
panics. Neither changes anything. -/
def step (s : MemoryState) : MemoryOp → Option MemoryState
  | .store offset b =>
    if offset < s.mem.inst.dataSize then some (s.poke (s.mem.inst.base + offset) b) else some s
  | .hostWrite i b =>
    let sl := Memory.dataMut 64 s.mem.inst
    if i < sl.len then some (s.poke (sl.ptr + i) b) else some s
  | .grow req left =>
    (s.mem.step growPages req).map fun mem =>
      if mem.inst.curPageCount = s.mem.inst.curPageCount then { s with mem := mem }
      -- Pages were added, so the memory is where WAMR allocated it.
      else ⟨mem, s.moved mem.inst.base mem.inst.dataSize left⟩

end MemoryState

/-- What a memory is: its bytes, whether its module grows it, and the most pages it may have. -/
structure Contents where
  bytes : List UInt8
  grows : Bool
  limit : Nat
deriving DecidableEq, Repr

namespace Contents

/-- Performs one operation. -/
def step (c : Contents) : MemoryOp → Option Contents
  | .store i b | .hostWrite i b => some { c with bytes := c.bytes.set i b }
  | .grow req _ =>
    if c.grows = false then none
    else if c.limit < c.bytes.length / wasmPageSize + req.increment ∨ req.alloc = none then some c
    else some { c with bytes := c.bytes ++ List.replicate (req.increment * wasmPageSize) 0 }

end Contents

end Wamrx
