import Wamrx.Util

/-!
# `Wamrx.Trampoline`: the trampoline of all host functions

`raw_trampoline` of `linker.rs`. WAMR calls it with one 64-bit slot for each parameter. It
decodes them, runs the closure behind the attachment pointer, and writes a result back to
slot 0. A panic of the closure becomes an exception on the calling instance.

A closure may have state of its own, share state with others, and use the API. So it takes a state
`σ` and leaves one, and nothing is said about what `σ` is.

A slot that WAMR did not hand over must not be read or written. `none` marks a run that does.
-/

set_option autoImplicit false

namespace Wamrx

/-- What a closure leaves behind: the `results` slice, and whether it panicked. It may have
written to the slice before. -/
structure HostRun where
  results : List Val
  panicked : Bool
deriving DecidableEq, Repr

/-- `HostFunc`: a closure over the parameters and a mutable slice of results. A slice keeps
its length. -/
structure HostFunc (σ : Type) where
  run : List Val → List Val → σ → HostRun × σ
  length_results : ∀ params results s,
    (run params results s).1.results.length = results.length

/-- `HostFuncCtx`: what the attachment pointer designates. -/
structure HostFuncCtx (σ : Type) where
  ty : FuncType
  func : HostFunc σ

/-- The text that `raw_trampoline` hands to `wasm_runtime_set_exception`. -/
def hostFunctionPanicked : Name := "host function panicked".toUTF8.data.toList

/-- What a run of the trampoline does: the slots after it, the parameters the closure was
called with, and the text that it sets as an exception. -/
structure TrampolineRun where
  argv : List (BitVec 64)
  called : Option (List Val)
  exception : Option Name
deriving DecidableEq, Repr

/-- Decodes one slot for each parameter. -/
def decodeParams : List ValType → List (BitVec 64) → Option (List Val)
  | [], _ => some []
  | _ :: _, [] => none
  | ty :: tys, slot :: argv => (decodeParams tys argv).map (Val.fromRawSlot ty slot :: ·)

/-- `*argv = slot`. -/
def writeSlot0 (argv : List (BitVec 64)) (slot : BitVec 64) : Option (List (BitVec 64)) :=
  match argv with
  | [] => none
  | _ :: argv => some (slot :: argv)

/-- `raw_trampoline`. -/
def rawTrampoline {σ : Type} (attachment : Option (HostFuncCtx σ)) (argv : List (BitVec 64))
    (s : σ) : Option (TrampolineRun × σ) :=
  match attachment with
  -- A null attachment: the trampoline returns, and the import looks like a no-op.
  | none => some (⟨argv, none, none⟩, s)
  | some ctx => do
    let params ← decodeParams ctx.ty.params argv
    let results := ctx.ty.results.map ValType.defaultValue
    let outcome := ctx.func.run params results s
    if outcome.1.panicked then
      -- What the closure wrote before the panic is dropped.
      some (⟨argv, some params, some hostFunctionPanicked⟩, outcome.2)
    else
      -- Only the first result is returned.
      match outcome.1.results.head? with
      | some result => do
        let argv ← writeSlot0 argv result.toRawSlot
        some (⟨argv, some params, none⟩, outcome.2)
      | none => some (⟨argv, some params, none⟩, outcome.2)

end Wamrx
