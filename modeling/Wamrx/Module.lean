import Wamrx.ModuleBytes
import Wamrx.Process

/-!
# `Wamrx.Module`: loaded modules

`Module::new` and the drop of a `Module`, from `module.rs`. WAMR keeps pointers into the bytes
of a loaded module, so the module owns a copy of them.
-/

set_option autoImplicit false

namespace Wamrx

/-- `Module`. -/
structure Module where
  raw : Nat
  bytes : Nat
  memoryType : Option MemoryType
  engine : Engine
deriving DecidableEq, Repr

/-- What WAMR answers to `wasm_runtime_load`: the function imports of the module, or the text
that it leaves in the error buffer. -/
abbrev LoadResult := Except Name (List Import)

namespace Module

/-- `Module::new`. A panic of `parse_memory_type` would unwind: the copy of the bytes is freed,
and the handle is lost. -/
def new {F : Type} (link : Linking) (usizeBits : Nat) (c : Process F) (e : Engine)
    (bytes : List UInt8) (loaded : LoadResult) : Process F × Except (Error ⊕ Panic) Module :=
  let (c, owned) := c.alloc (.bytes bytes)
  match loaded with
  | .error errBuf => (c.free owned, .error (.inl (.moduleLoad (cstrBufToString errBuf))))
  | .ok imports =>
    -- WAMR reads and rewrites `owned`; the parser reads the caller's bytes.
    let (c, raw) := c.load link owned imports
    match parseMemoryType usizeBits bytes with
    | .some ty => (c.cloneEngine e, .ok ⟨raw, owned, some ty, e⟩)
    | .none => (c.cloneEngine e, .ok ⟨raw, owned, none, e⟩)
    -- `raw` is a plain pointer until the `Module` is built, so nothing unloads it.
    | .panic p => (c.free owned, .error (.inr p))

/-- The drop of a `Module`: its `Drop`, then the bytes and the engine. -/
def drop {F : Type} (c : Process F) (m : Module) : Process F :=
  ((c.unload m.raw).free m.bytes).dropEngine m.engine

end Module

end Wamrx
