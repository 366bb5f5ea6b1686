import Wamrx.Value
import Wamrx.Support.Leb128

/-!
# `Wamrx.WasmBinary`: well-formed Wasm binaries, as far as memories go

The format that the memory-type parser reads, stated without a parser: the preamble, then
sections of an id, a size and that many payload bytes. Every number is a LEB128 encoding of a
32-bit number, minimal or padded. The payload of a memory section (id 5) is a vector of
limits. The payload of any other section is arbitrary.

`WasmModule.bytes` writes a module down, and `WasmModule.declaredMemory` is the type of its
first memory.
-/

set_option autoImplicit false

namespace Wamrx

open Support (LebU32)

/-- `limits`: the maximum is there exactly when bit 0 of the flags is set. -/
structure Limits where
  flags : LebU32
  minimum : LebU32
  maximum : Option LebU32
  maximum_iff : maximum.isSome = true ↔ flags.value % 2 = 1

namespace Limits

def bytes (l : Limits) : List UInt8 :=
  l.flags.bytes ++ (l.minimum.bytes ++ (l.maximum.elim [] LebU32.bytes))

def memoryType (l : Limits) : MemoryType :=
  ⟨l.minimum.value, l.maximum.map LebU32.value⟩

end Limits

/-- The payload of a memory section: a count, and that many limits. Only the first is looked
at, the others are bytes. -/
inductive MemoryVec where
  | empty (count : LebU32) (count_eq : count.value = 0) (rest : List UInt8)
  | cons (count : LebU32) (count_pos : 0 < count.value) (first : Limits) (rest : List UInt8)

namespace MemoryVec

def bytes : MemoryVec → List UInt8
  | .empty count _ rest => count.bytes ++ rest
  | .cons count _ first rest => count.bytes ++ (first.bytes ++ rest)

/-- The type of the first memory. -/
def firstType? : MemoryVec → Option MemoryType
  | .empty _ _ _ => none
  | .cons _ _ first _ => some first.memoryType

end MemoryVec

/-- A section: its size field counts exactly its payload. -/
inductive WasmSection where
  | memory (size : LebU32) (vec : MemoryVec) (size_eq : size.value = vec.bytes.length)
  | other (id : UInt8) (id_ne : id ≠ 5) (size : LebU32) (payload : List UInt8)
      (size_eq : size.value = payload.length)

namespace WasmSection

def bytes : WasmSection → List UInt8
  | .memory size vec _ => 5 :: (size.bytes ++ vec.bytes)
  | .other id _ size payload _ => id :: (size.bytes ++ payload)

def id : WasmSection → UInt8
  | .memory _ _ _ => 5
  | .other id _ _ _ _ => id

/-- The first memory of the first memory section of a list of sections. -/
def declaredMemory : List WasmSection → Option MemoryType
  | [] => none
  | .memory _ vec _ :: _ => vec.firstType?
  | .other _ _ _ _ _ :: rest => declaredMemory rest

end WasmSection

/-- Version 1 of the binary format. -/
def wasmVersion : List UInt8 := [1, 0, 0, 0]

theorem length_wasmVersion : wasmVersion.length = 4 := rfl

/-- The preamble is the magic `\0asm` and four version bytes. -/
structure WasmModule where
  version : List UInt8
  version_length : version.length = 4
  sections : List WasmSection

namespace WasmModule

def bytes (m : WasmModule) : List UInt8 :=
  [0x00, 0x61, 0x73, 0x6d] ++ (m.version ++ m.sections.flatMap WasmSection.bytes)

def declaredMemory (m : WasmModule) : Option MemoryType :=
  WasmSection.declaredMemory m.sections

end WasmModule

end Wamrx
