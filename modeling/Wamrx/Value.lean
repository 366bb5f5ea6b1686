/-!
# `Wamrx.Value`: value types, values and their two encodings

The types of `value.rs`. An `f32` or `f64` is its bit pattern, because the bindings only move
floats. `i32` and `i64` are bit vectors of their width for the same reason.

`WasmVal` is the C struct `wasm_val_t`: a kind tag and an eight-byte union. The union is one
64-bit word, and the 32-bit members are its low half (a little-endian host).
-/

set_option autoImplicit false

namespace Wamrx

/-- A string of the C side: the bytes before its terminating NUL. -/
abbrev Name := List UInt8

/-- `ValType`: the four numeric types. -/
inductive ValType where
  | i32
  | i64
  | f32
  | f64
deriving DecidableEq, Repr

/-- `Val`: a typed value, floats by bit pattern. -/
inductive Val where
  | i32 (v : BitVec 32)
  | i64 (v : BitVec 64)
  | f32 (bits : BitVec 32)
  | f64 (bits : BitVec 64)
deriving DecidableEq, Repr

/-! ### WAMR's `wasm_val_t` -/

/-- `wasm_valkind_t`, a byte. -/
abbrev ValKind := UInt8

/-- The `wasm_valkind_enum` constants of the numeric kinds. -/
def wasmI32 : UInt32 := 0
def wasmI64 : UInt32 := 1
def wasmF32 : UInt32 := 2
def wasmF64 : UInt32 := 3

/-- `wasm_val_t`. -/
structure WasmVal where
  kind : ValKind
  bits : BitVec 64
deriving DecidableEq, Repr

/-- `core::mem::zeroed::<wasm_val_t>()`. -/
def WasmVal.zeroed : WasmVal := ⟨0, 0⟩

/-- Writes a 32-bit member of the union. The other half keeps its bits. -/
def WasmVal.setLow (raw : WasmVal) (v : BitVec 32) : WasmVal :=
  { raw with bits := raw.bits.extractLsb' 32 32 ++ v }

/-- Reads a 32-bit member of the union. -/
def WasmVal.low (raw : WasmVal) : BitVec 32 := raw.bits.setWidth 32

namespace ValType

/-- `ValType::signature_char`. -/
def signatureChar : ValType → UInt8
  | .i32 => 'i'.toUInt8
  | .i64 => 'I'.toUInt8
  | .f32 => 'f'.toUInt8
  | .f64 => 'F'.toUInt8

/-- `ValType::default_value`: the zero of the type. `0.0` has the zero bit pattern. -/
def defaultValue : ValType → Val
  | .i32 => .i32 0
  | .i64 => .i64 0
  | .f32 => .f32 0
  | .f64 => .f64 0

/-- `ValType::from_valkind`: `none` for the kinds the bindings do not model. -/
def fromValkind (kind : ValKind) : Option ValType :=
  let k := kind.toUInt32
  if k = wasmI32 then some .i32
  else if k = wasmI64 then some .i64
  else if k = wasmF32 then some .f32
  else if k = wasmF64 then some .f64
  else none

end ValType

namespace Val

/-- `Val::ty`. -/
def ty : Val → ValType
  | .i32 _ => .i32
  | .i64 _ => .i64
  | .f32 _ => .f32
  | .f64 _ => .f64

/-- `Val::to_raw_slot`: the 32-bit types take the low half of the slot. -/
def toRawSlot : Val → BitVec 64
  | .i32 v => v.setWidth 64
  | .i64 v => v
  | .f32 v => v.setWidth 64
  | .f64 v => v

/-- `Val::from_raw_slot`. -/
def fromRawSlot (ty : ValType) (slot : BitVec 64) : Val :=
  match ty with
  | .i32 => .i32 (slot.setWidth 32)
  | .i64 => .i64 slot
  | .f32 => .f32 (slot.setWidth 32)
  | .f64 => .f64 slot

/-- `Val::to_wasm_val`: the tag and one union member, over a zeroed struct. -/
def toWasmVal (v : Val) : WasmVal :=
  let raw := WasmVal.zeroed
  match v with
  -- A 32-bit member leaves the zeros of the other half.
  | .i32 v => { raw with kind := wasmI32.toUInt8 }.setLow v
  | .i64 v => { kind := wasmI64.toUInt8, bits := v }
  | .f32 v => { raw with kind := wasmF32.toUInt8 }.setLow v
  | .f64 v => { kind := wasmF64.toUInt8, bits := v }

/-- `Val::from_wasm_val`: every tag that is not one of the first three reads as an `f64`. -/
def fromWasmVal (raw : WasmVal) : Val :=
  let kind := raw.kind.toUInt32
  if kind = wasmI32 then .i32 raw.low
  else if kind = wasmI64 then .i64 raw.bits
  else if kind = wasmF32 then .f32 raw.low
  -- The source matches `_` here, and not the `f64` tag.
  else .f64 raw.bits

end Val

/-- `Mutability`. -/
inductive Mutability where
  | const
  | mutable
deriving DecidableEq, Repr

/-- `GlobalType`. -/
structure GlobalType where
  content : ValType
  mutability : Mutability
deriving DecidableEq, Repr

/-- `MemoryType`: page limits (`u64`). -/
structure MemoryType where
  minimum : Nat
  maximum : Option Nat
deriving DecidableEq, Repr

/-- `FuncType`: parameter and result types. -/
structure FuncType where
  params : List ValType
  results : List ValType
deriving DecidableEq, Repr

/-- `FuncType::signature_cstring`, e.g. `"(ii)i"`. -/
def FuncType.signatureCString (ty : FuncType) : Name :=
  '('.toUInt8 :: ty.params.map ValType.signatureChar ++
    ')'.toUInt8 :: ty.results.map ValType.signatureChar

end Wamrx
