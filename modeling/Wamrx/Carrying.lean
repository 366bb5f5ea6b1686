import Wamrx.Value

/-!
# `Wamrx.Carrying`: how WAMR carries values

WAMR's side of the two layouts. A value of a 32-bit type carries 32 bits from one place to the next.
What WAMR leaves in the other half of a word is arbitrary (`Junk`), and so are the slots of `argv`
behind the parameters.
-/

set_option autoImplicit false

namespace Wamrx

/-- The kind tag of a value type. -/
def ValType.kind : ValType → ValKind
  | .i32 => wasmI32.toUInt8
  | .i64 => wasmI64.toUInt8
  | .f32 => wasmF32.toUInt8
  | .f64 => wasmF64.toUInt8

/-- Carries the bits of a value of the type. The upper half of a 32-bit value's word is
filled with `junk`. -/
def carry (ty : ValType) (junk : BitVec 32) (word : BitVec 64) : BitVec 64 :=
  match ty with
  | .i32 | .f32 => junk ++ word.setWidth 32
  | .i64 | .f64 => word

/-- The raw slots of the arguments, each read by its declared type. -/
def argSlots : List ValType → List WasmVal → (Nat → BitVec 32) → List (BitVec 64)
  | ty :: tys, arg :: args, junk =>
    carry ty (junk 0) arg.bits :: argSlots tys args fun i => junk (i + 1)
  | _, _, _ => []

/-- What WAMR leaves to chance in a call of an import: the upper halves of the argument slots, and
the slots behind the arguments. There is at least one slot for a result. -/
structure Junk where
  args : Nat → BitVec 32
  spare : BitVec 64
  more : List (BitVec 64)

/-- The slots that WAMR hands to the trampoline. -/
def Junk.argv (junk : Junk) (args : List Val) : List (BitVec 64) :=
  argSlots (args.map Val.ty) (args.map Val.toWasmVal) junk.args ++ junk.spare :: junk.more

/-- The result of a host function, read from slot 0 by its declared type. -/
def takeResult : List ValType → List (BitVec 64) → Option Val
  | ty :: _, slot :: _ => some (Val.fromRawSlot ty slot)
  | _, _ => none

/-- The results as WAMR hands them out: tagged with their kinds, and in words whose other halves
are arbitrary. -/
def taggedResults : List Val → (Nat → BitVec 32) → List WasmVal
  | v :: vs, junk => ⟨v.ty.kind, carry v.ty (junk 0) v.toRawSlot⟩ ::
      taggedResults vs fun i => junk (i + 1)
  | [], _ => []

end Wamrx
