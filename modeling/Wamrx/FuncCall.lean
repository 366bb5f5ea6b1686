import Mathlib.Algebra.Group.Nat.Defs
import Wamrx.Error
import Wamrx.Util

/-!
# `Wamrx.FuncCall`: calling an exported function

`Func::ty` and `Func::call` of `func.rs`. What WAMR does in `wasm_runtime_call_wasm_a`, and what
`wasm_runtime_get_exception` reads afterwards, are parameters. So is WAMR's state `σ`. The call
of `ensure_thread_env` at the start of `Func::call` is modelled in `Wamrx.ThreadEnv`.
-/

set_option autoImplicit false

namespace Wamrx

/-- `Func`: the instance it belongs to, and the counts that WAMR reports for it
(`len_params` and `len_results`). -/
structure Func where
  inst : Nat
  lenParams : UInt32
  lenResults : UInt32
deriving DecidableEq, Repr

/-- The kinds that WAMR reports for the parameters and the results of a function. It counts both
in 32 bits. -/
structure FuncKinds where
  params : List ValKind
  results : List ValKind
  params_lt : params.length < 2 ^ 32
  results_lt : results.length < 2 ^ 32

/-- The handle of a function of these kinds. -/
def FuncKinds.func (kinds : FuncKinds) (inst : Nat) : Func :=
  ⟨inst, UInt32.ofNat kinds.params.length, UInt32.ofNat kinds.results.length⟩

/-- `Func::ty`. A kind that the bindings do not model is reported as an `i32`. -/
def Func.ty (kinds : FuncKinds) : FuncType :=
  let toTy := fun k : ValKind => (ValType.fromValkind k).getD .i32
  ⟨kinds.params.map toTy, kinds.results.map toTy⟩

/-- What `wasm_runtime_call_wasm_a` leaves behind: its return value, the array of raw results,
and the new state of WAMR. -/
structure WasmCall (σ : Type) where
  ok : Bool
  rawResults : List WasmVal
  state : σ

/-- `wasm_runtime_call_wasm_a`, from its `num_results`, `results`, `num_args` and `args`. -/
abbrev CallWasmA (σ : Type) :=
  UInt32 → List WasmVal → UInt32 → List WasmVal → σ → WasmCall σ

/-- What the caller of `Func::call` gets: the result, and its buffer of results. -/
abbrev CallOutcome := Except Error Unit × List Val

/-- `for (dst, raw) in results.iter_mut().zip(raw_results.iter())`: extra slots are left
untouched. -/
def storeResults : List Val → List WasmVal → List Val
  | _ :: results, raw :: rawResults => Val.fromWasmVal raw :: storeResults results rawResults
  | results, _ => results

/-- `Func::call`. -/
def Func.call {σ : Type} (f : Func) (callWasmA : CallWasmA σ) (getException : σ → Option Name)
    (params results : List Val) (s : σ) : CallOutcome × σ :=
  let nResults := f.lenResults.toNat
  if results.length < nResults then
    ((.error (.signatureMismatch nResults results.length), results), s)
  else
    let args := params.map Val.toWasmVal
    let rawResults := List.replicate nResults WasmVal.zeroed
    let r := callWasmA (UInt32.ofNat nResults) rawResults (UInt32.ofNat args.length) args s
    if r.ok then
      ((.ok (), storeResults results r.rawResults), r.state)
    else
      -- The text is whatever the exception slot of the instance holds.
      ((.error (.trap (cstrPtrToString (getException r.state))), results), r.state)

end Wamrx
