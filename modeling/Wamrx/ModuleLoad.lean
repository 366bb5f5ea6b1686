import Wamrx.Module
import Wamrx.ModuleDecls

/-!
# `Wamrx.ModuleLoad`: the load of a module, with its buffer

`Module.new` takes the answer of `wasm_runtime_load` as given. Here the call is made: WAMR gets the
copy of the bytes and its length as a `u32`, and the parser gets the bytes of the caller.

WAMR is not part of this repository. `Loader` is its function, and `LoadsPrefix` is what the
bindings rely on.
-/

set_option autoImplicit false

namespace Wamrx

/-- What WAMR makes of a buffer: the module in it, and its function imports. -/
structure LoadedBinary where
  binary : WasmModule
  imports : List Import

/-- `wasm_runtime_load(buf, size, ..)`: what it loads, or the text that it leaves in the error
buffer, and `buf` after the call. -/
abbrev Loader := List UInt8 → UInt32 → Except Name LoadedBinary × List UInt8

/-- WAMR accepts well-formed modules with one memory at most. It looks at the first `size` bytes,
and may rewrite them. -/
structure LoadsPrefix (load : Loader) : Prop where
  bytes_eq : ∀ buf size m, (load buf size).1 = .ok m → buf.take size.toNat = m.binary.bytes
  one_memory : ∀ buf size m, (load buf size).1 = .ok m → m.binary.memoryCount ≤ 1

namespace Module

/-- The call of `wasm_runtime_load` in `Module::new`. -/
def loadOwned (load : Loader) (owned : List UInt8) : Except Name LoadedBinary × List UInt8 :=
  -- `owned.len() as u32`: the upper bits of the length are lost, with no check.
  load owned (UInt32.ofNat owned.length)

/-- `Module::new`, on a host with this `wasm_runtime_load`. -/
def newWith {F : Type} (link : Linking) (usizeBits : Nat) (load : Loader) (c : Process F)
    (e : Engine) (bytes : List UInt8) : Process F × Except (Error ⊕ Panic) Module :=
  let (c, owned) := c.alloc (.bytes bytes)
  let (answer, rewritten) := loadOwned load bytes
  let c := { c with heap := c.heap.set owned (.bytes rewritten) }
  match answer with
  | .error errBuf => (c.free owned, .error (.inl (.moduleLoad (cstrBufToString errBuf))))
  | .ok m =>
    let (c, raw) := c.load link owned m.imports
    -- The caller's bytes: neither cut nor rewritten.
    match parseMemoryType usizeBits bytes with
    | .some ty => (c.cloneEngine e, .ok ⟨raw, owned, some ty, e⟩)
    | .none => (c.cloneEngine e, .ok ⟨raw, owned, none, e⟩)
    | .panic p => (c.free owned, .error (.inr p))

end Module

end Wamrx
