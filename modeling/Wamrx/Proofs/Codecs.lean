import Wamrx.Carrying

/-!
# `Wamrx.Proofs.Codecs`: the two encodings of a value

A value travels as a `wasm_val_t` through `Func::call` and as a 64-bit slot through the
trampoline. Each codec is inverse on the bits that WAMR carries (`Agrees`), whatever stands in
the other half of a word.
-/

set_option autoImplicit false

namespace Wamrx.Proofs

/-- The slots agree on the bits of a value of the type: the low 32, or all 64. -/
def Agrees (ty : ValType) (slot slot' : BitVec 64) : Prop :=
  match ty with
  | .i32 | .f32 => slot.setWidth 32 = slot'.setWidth 32
  | .i64 | .f64 => slot = slot'

/-- The low half of a word made of two halves. -/
theorem setWidth_append_low (hi lo : BitVec 32) : (hi ++ lo).setWidth 32 = lo :=
  BitVec.setWidth_append_eq_right

/-- A value that was widened is found in the low half. -/
theorem setWidth_setWidth_low (v : BitVec 32) : (v.setWidth 64).setWidth 32 = v := by
  simp

/-- What WAMR carries agrees with what it was given. -/
theorem agrees_carry (ty : ValType) (junk : BitVec 32) (word : BitVec 64) :
    Agrees ty (carry ty junk word) word := by
  cases ty <;> first | exact setWidth_append_low _ _ | rfl

/-- `from_raw_slot` undoes `to_raw_slot` on every slot that agrees with it. -/
theorem fromRawSlot_of_agrees (v : Val) {slot : BitVec 64} (h : Agrees v.ty slot v.toRawSlot) :
    Val.fromRawSlot v.ty slot = v := by
  cases v with
  | i32 v =>
    have h : slot.setWidth 32 = v := h.trans (setWidth_setWidth_low v)
    exact congrArg Val.i32 h
  | i64 v => exact congrArg Val.i64 h
  | f32 v =>
    have h : slot.setWidth 32 = v := h.trans (setWidth_setWidth_low v)
    exact congrArg Val.f32 h
  | f64 v => exact congrArg Val.f64 h

/-- `from_wasm_val` undoes `to_wasm_val`. -/
theorem fromWasmVal_toWasmVal (v : Val) : Val.fromWasmVal v.toWasmVal = v := by
  cases v with
  | i32 v => exact congrArg Val.i32 (setWidth_append_low _ v)
  | i64 v => rfl
  | f32 v => exact congrArg Val.f32 (setWidth_append_low _ v)
  | f64 v => rfl

/-- The union of a `wasm_val_t` and the raw slot of a value agree on its bits. -/
theorem agrees_bits_toWasmVal (v : Val) : Agrees v.ty v.toWasmVal.bits v.toRawSlot := by
  cases v with
  | i32 v => exact (setWidth_append_low _ v).trans (setWidth_setWidth_low v).symm
  | i64 v => rfl
  | f32 v => exact (setWidth_append_low _ v).trans (setWidth_setWidth_low v).symm
  | f64 v => rfl

theorem Agrees.trans {ty : ValType} {a b c : BitVec 64} (hab : Agrees ty a b)
    (hbc : Agrees ty b c) : Agrees ty a c := by
  cases ty <;> exact Eq.trans hab hbc

/-- A tagged word whose bits agree with the raw slot of a value reads as the value. -/
theorem fromWasmVal_of_agrees (v : Val) {bits : BitVec 64} (h : Agrees v.ty bits v.toRawSlot) :
    Val.fromWasmVal ⟨v.ty.kind, bits⟩ = v := by
  cases v with
  | i32 v =>
    have h : bits.setWidth 32 = v := Eq.trans h (setWidth_setWidth_low v)
    exact congrArg Val.i32 h
  | i64 v => exact congrArg Val.i64 h
  | f32 v =>
    have h : bits.setWidth 32 = v := Eq.trans h (setWidth_setWidth_low v)
    exact congrArg Val.f32 h
  | f64 v => exact congrArg Val.f64 h

end Wamrx.Proofs
