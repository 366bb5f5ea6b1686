import Wamrx.FuncCall

/-!
# `Wamrx.TypedCall`: how WAMR takes the arguments of a call

WAMR's side of `wasm_runtime_call_wasm_a`, for a function of numeric parameters. It compares the
number of arguments with the declared number, as 32-bit words. Then it reads the union of each
argument by the declared type. The kind tag is not looked at.

WAMR is not part of this repository: `ReadsByType` says what a result needs to know about it, and
`callByType` is one function that behaves so.
-/

set_option autoImplicit false

namespace Wamrx

/-- Reads the union of a `wasm_val_t` as a value of the type, whatever its tag says. -/
def WasmVal.readAs (raw : WasmVal) : ValType → Val
  | .i32 => .i32 raw.low
  | .i64 => .i64 raw.bits
  | .f32 => .f32 raw.low
  | .f64 => .f64 raw.bits

/-- The parameters, each read by its declared type. Arguments behind them are not looked at. -/
def readArgs : List ValType → List WasmVal → List Val
  | ty :: tys, arg :: args => arg.readAs ty :: readArgs tys args
  | _, _ => []

/-- WAMR's state, with the parameter lists that the function has been run on. -/
structure Logged (σ : Type) where
  state : σ
  runs : List (List Val)

/-- `wasm_runtime_call_wasm_a` on a function of these parameter types. A wrong count is reported
without running anything, and without an exception. Otherwise the function is run on its arguments,
each read by the declared type. -/
structure ReadsByType {σ : Type} (tys : List ValType) (callWasmA : CallWasmA (Logged σ)) :
    Prop where
  refused : ∀ numResults rawResults numArgs args s, numArgs ≠ UInt32.ofNat tys.length →
    (callWasmA numResults rawResults numArgs args s).ok = false ∧
      (callWasmA numResults rawResults numArgs args s).state = s
  run : ∀ numResults rawResults numArgs args s, numArgs = UInt32.ofNat tys.length →
    (callWasmA numResults rawResults numArgs args s).state.runs = s.runs ++ [readArgs tys args]

/-- A function that does `body`, which gets the array of raw results to write to. -/
def callByType {σ : Type} (tys : List ValType)
    (body : List WasmVal → List Val → σ → WasmCall σ) : CallWasmA (Logged σ) :=
  fun _ rawResults numArgs args s =>
    -- A wrong count is reported without an exception.
    if numArgs ≠ UInt32.ofNat tys.length then ⟨false, rawResults, s⟩
    else
      let vs := readArgs tys args
      let r := body rawResults vs s.state
      ⟨r.ok, r.rawResults, ⟨r.state, s.runs ++ [vs]⟩⟩

end Wamrx
