import Wamrx.Carrying
import Wamrx.Exceptions
import Wamrx.Trampoline
import Wamrx.TypedCall

/-!
# `Wamrx.Guest`: exported functions that call host functions

A `Guest` is what an exported function does: it calls any number of imported host functions, each
call depending on the results of the earlier ones, and ends with results or with a trap.

`Guest.run` executes it as WAMR does. What a call of an import does is a parameter. When it comes
back, WAMR looks at the exception slot of the instance, and goes on only if that is empty.
`callImport` is a call of an import that is bound to a context: it goes through slots and through
`rawTrampoline`. `callFunction` is `wasm_runtime_call_wasm_a`.

`Guest.eval` says what is meant: the closures are called with typed values, and there are no slots
and no words. It is not translated from the source. `Proofs.guest_call` compares the two.
-/

set_option autoImplicit false

namespace Wamrx

/-- What an exported function does. It goes on with the result of a host function, if that has
one. -/
inductive Guest where
  | ret (values : List Val)
  | trap (text : Name)
  | callHost (k : Nat) (args : List Val) (next : Option Val → Guest)

/-- A function that forwards its parameters to its first import, and returns what that returns. -/
def forwards : List Val → Guest := fun vs => .callHost 0 vs fun result => .ret result.toList

/-- How an execution ends: with results, with an exception that it raised itself, or because the
slot was full when a host function came back. -/
inductive GuestEnd where
  | returned (values : List Val)
  | raised (text : Name)
  | stopped
deriving DecidableEq, Repr

/-- What a call of an import hands back: the result, if there is one, and the text of the exception
that the call raised. -/
structure HostReturn where
  result : Option Val
  raised : Option Name
deriving DecidableEq, Repr

/-- A call of a closure: the number of the import, and the parameters. -/
abbrev HostCall := Nat × List Val

/-- A state, with the calls of closures so far. -/
structure Traced (σ : Type) where
  state : σ
  calls : List HostCall
deriving DecidableEq, Repr

/-- The same slot, next to the calls. -/
def ExceptionSlot.traced {σ : Type} (slot : ExceptionSlot σ) : ExceptionSlot (Traced σ) where
  get t := slot.get t.state
  set text t := { t with state := slot.set text t.state }
  get_set text t := slot.get_set text t.state

/-! ### Execution by WAMR -/

namespace Guest

/-- The end of an execution that does not go on after a host call. -/
def stop : Option Name → GuestEnd
  | some text => .raised text
  | none => .stopped

/-- Executes with WAMR. `none` marks an execution that is not defined. -/
def run {σ : Type} (slot : ExceptionSlot σ)
    (host : Nat → List Val → σ → Option (HostReturn × σ)) : Guest → σ → Option (GuestEnd × σ)
  | .ret values, s => some (.returned values, s)
  | .trap text, s => some (.raised text, slot.set text s)
  | .callHost k args next, s => do
    let (r, s) ← host k args s
    -- WAMR does not ask who filled the slot, or when.
    if (slot.get s).isSome then some (stop r.raised, s)
    else (next r.result).run slot host s

end Guest

/-- `wasm_runtime_call_wasm_a` on a function of the instance with this slot. A wrong argument or
result count is refused without running anything. Otherwise the call succeeds exactly when the slot
is empty at the end. -/
def callFunction {σ : Type} (slot : ExceptionSlot σ) (f : Func)
    (exec : List WasmVal → σ → Option (GuestEnd × σ)) (junk : Nat → BitVec 32) : CallWasmA σ :=
  fun numResults rawResults numArgs args s =>
    if numArgs ≠ f.lenParams ∨ numResults ≠ f.lenResults then ⟨false, rawResults, s⟩
    else
      match exec args s with
      -- A normal end with a full slot still counts as a failure.
      | some (.returned values, s) => ⟨(slot.get s).isNone, taggedResults values junk, s⟩
      | some (_, s) => ⟨(slot.get s).isNone, rawResults, s⟩
      -- An execution that is not defined has no result.
      | none => ⟨false, rawResults, s⟩

/-- `Func::call` of a function of the instance with this slot. -/
def Func.invoke {σ : Type} (slot : ExceptionSlot σ) (f : Func)
    (exec : List WasmVal → σ → Option (GuestEnd × σ)) (junk : Nat → BitVec 32)
    (params results : List Val) (s : σ) : CallOutcome × σ :=
  f.call (callFunction slot f exec junk) slot.get params results s

/-- A call of an import that is bound to a context. -/
def callImport {σ : Type} (slot : ExceptionSlot σ) (ctx : HostFuncCtx σ) (junk : Junk) (k : Nat)
    (args : List Val) (t : Traced σ) : Option (HostReturn × Traced σ) := do
  let (r, s) ← rawTrampoline (some ctx) (junk.argv args) t.state
  let s := match r.exception with
    | some text => slot.set text s
    | none => s
  let calls := t.calls ++ r.called.toList.map fun vs => (k, vs)
  return (⟨takeResult ctx.ty.results r.argv, r.exception⟩, ⟨s, calls⟩)

/-- The handle of an exported function of the type. -/
def FuncType.handle (ty : FuncType) (inst : Nat) : Func :=
  ⟨inst, UInt32.ofNat ty.params.length, UInt32.ofNat ty.results.length⟩

/-- `Func::call` of an exported function of the type that does `body`, where a call of an import
does what `host` says. -/
def callBody {σ : Type} (slot : ExceptionSlot σ)
    (host : Nat → List Val → σ → Option (HostReturn × σ)) (resultJunk : Nat → BitVec 32)
    (inst : Nat) (ty : FuncType) (body : List Val → Guest) (vs results : List Val) (s : σ) :
    CallOutcome × σ :=
  (ty.handle inst).invoke slot (fun args => (body (readArgs ty.params args)).run slot host)
    resultJunk vs results s

/-- The host functions behind the imports. -/
abbrev Hosts (σ : Type) := Nat → HostFuncCtx σ

/-- The same, with these host functions behind the imports. `junk` is what WAMR leaves to chance in
each call of an import, and `resultJunk` what it leaves to chance in the results. -/
def callGuest {σ : Type} (slot : ExceptionSlot σ) (h : Hosts σ) (junk : Nat → Junk) :
    (Nat → BitVec 32) → Nat → FuncType → (List Val → Guest) → List Val → List Val → Traced σ →
    CallOutcome × Traced σ :=
  callBody slot.traced fun k args t => callImport slot (h k) (junk t.calls.length) k args t

/-! ### What is meant -/

/-- A value as Wasm reads it under a declared type: the value itself if the type is its own, and
its bits otherwise. -/
def Val.asType (v : Val) (ty : ValType) : Val := Val.fromRawSlot ty v.toRawSlot

/-- The result that the function gets from a closure of the type. -/
def FuncType.received (ty : FuncType) (results : List Val) : Option Val :=
  match ty.results, results with
  | t :: _, v :: _ => some (v.asType t)
  | _, _ => none

namespace Guest

/-- Calls the closures directly. An exception that is there when a closure comes back ends the
execution. -/
def eval {σ : Type} (slot : ExceptionSlot σ) (h : Hosts σ) : Guest → Traced σ → GuestEnd × Traced σ
  | .ret values, t => (.returned values, t)
  | .trap text, t => (.raised text, slot.traced.set text t)
  | .callHost k args next, t =>
    let outcome := (h k).func.run args ((h k).ty.results.map ValType.defaultValue) t.state
    let t : Traced σ := ⟨outcome.2, t.calls ++ [(k, args)]⟩
    -- A panic ends the execution with a trap.
    if outcome.1.panicked then
      (.raised hostFunctionPanicked, slot.traced.set hostFunctionPanicked t)
    else if (slot.get outcome.2).isSome then (.stopped, t)
    else (next ((h k).ty.received outcome.1.results)).eval slot h t

end Guest

end Wamrx
