import Wamrx.Engine
import Wamrx.Linking
import Wamrx.Util
import Wamrx.Support.Lifetime

/-!
# `Wamrx.Process`: the heap, WAMR, and what is acquired from both

The state that all values of the API share: the engine counters, the `LinkerState` boxes, the
heap blocks that WAMR holds pointers into, WAMR's registry of native symbols, and WAMR's tables
of loaded modules, module instances and execution environments.

Addresses and handles are keys of an `Arena`, so none is ever used twice. A pointer is
therefore dangling exactly when it reads nothing, while a real allocator might hand the address
out again.

`trace` records every acquisition and release, each acquisition with what the new resource
relies on. Calls that WAMR refuses acquire nothing and leave no record.

`F` is the type of the closures. Nothing here looks into one.
-/

set_option autoImplicit false

namespace Wamrx

open Support Support.Lifetime

/-- `sys::NativeSymbol`, without the function pointer: it is always the trampoline's. -/
structure NativeSymbol where
  symbol : Nat
  signature : Nat
  attachment : Nat
deriving DecidableEq, Repr

/-- A node of WAMR's registry: the two pointers that a registration hands over. -/
structure NativesNode where
  moduleName : Nat
  nativeSymbols : Nat
deriving DecidableEq, Repr

/-- The contents of a heap block: a `CString`, a boxed `HostFuncCtx`, a boxed array of one
symbol, the bytes of a module, or the buffer of a `Vec<NativeEntry>`. -/
inductive Cell (F : Type) where
  | cstring (text : Name)
  | context (ty : FuncType) (func : F)
  | symbols (symbol : NativeSymbol)
  | bytes (bytes : List UInt8)
  | entries

/-- What is acquired and released: an incarnation of the runtime, a heap block, a registration,
and the handles of WAMR. -/
inductive Resource where
  | runtime (incarnation : Nat)
  | block (addr : Nat)
  | natives (node : NativesNode)
  | module (handle : Nat)
  | moduleInst (handle : Nat)
  | execEnv (handle : Nat)
deriving DecidableEq, Repr

/-- An import of a loaded module, with the attachment pointer of the symbol it was bound to.
`none` is an unlinked import. -/
structure BoundImport where
  target : Import
  attachment : Option Nat
deriving DecidableEq, Repr

/-- `NativeEntry`. Its fields own heap blocks, so moving an entry moves five pointers. -/
structure NativeEntry where
  moduleName : Nat
  field : Nat
  signature : Nat
  context : Nat
  symbol : Nat
deriving DecidableEq, Repr

/-- `LinkerState`. The `Vec` of entries has a buffer of `cap` places, or none before the first
entry. -/
structure LinkerState where
  engine : Engine
  buf : Option Nat
  cap : Nat
  entries : List NativeEntry
deriving DecidableEq, Repr

/-- The state that all values share. The registry is newest first. -/
structure Process (F : Type) where
  eng : EngineState
  states : Rc.Table LinkerState
  heap : Arena (Cell F)
  registry : List NativesNode
  modules : Arena (List BoundImport)
  moduleInsts : Arena Nat
  execEnvs : Arena Nat
  trace : List (Act Resource)

namespace Process

variable {F : Type}

def init : Process F :=
  ⟨EngineState.init, Arena.empty, Arena.empty, [], Arena.empty, Arena.empty, Arena.empty, []⟩

/-- The runtime that is running, or that ran last. -/
def runtime (c : Process F) : Resource := .runtime c.eng.incarnation

def acquire (c : Process F) (r : Resource) (deps : List Resource) : Process F :=
  { c with trace := c.trace ++ [.acquire r deps] }

def release (c : Process F) (r : Resource) : Process F :=
  { c with trace := c.trace ++ [.release r] }

/-! ### The heap -/

/-- Allocates a block. -/
def alloc (c : Process F) (cell : Cell F) : Process F × Nat :=
  ({ c with heap := c.heap.push cell }.acquire (.block c.heap.next) [], c.heap.next)

/-- Frees a block. -/
def free (c : Process F) (addr : Nat) : Process F :=
  { c with heap := c.heap.erase addr }.release (.block addr)

/-- The text at a C string pointer. -/
def cstr (c : Process F) (addr : Nat) : Option Name :=
  match c.heap.get? addr with
  | some (.cstring text) => some text
  | _ => none

/-! ### WAMR's registry -/

/-- `wasm_runtime_register_natives_raw`, when it succeeds. The registration relies on every
block that WAMR got a pointer to. -/
def registerNatives (c : Process F) (node : NativesNode) (retained : List Nat) : Process F :=
  { c with registry := node :: c.registry }.acquire (.natives node)
    (retained.map Resource.block ++ [c.runtime])

/-- `wasm_runtime_unregister_natives`: removes the first node with the same symbol array and the
same module name. -/
def unregisterNatives (c : Process F) (moduleName symbols : Nat) : Process F :=
  let same := fun node : NativesNode =>
    decide (node.nativeSymbols = symbols ∧ c.cstr node.moduleName = c.cstr moduleName)
  match c.registry.find? same with
  | some node => { c with registry := c.registry.erase node }.release (.natives node)
  | none => c

/-- What the symbol of a node says, and its attachment pointer. -/
def symbolAt (c : Process F) (node : NativesNode) : Option (SymbolView × Nat) :=
  match c.heap.get? node.nativeSymbols with
  | some (.symbols sym) =>
    match c.cstr node.moduleName, c.cstr sym.symbol, c.cstr sym.signature with
    | some moduleName, some field, some signature =>
      some (⟨moduleName, field, signature⟩, sym.attachment)
    | _, _, _ => none
  -- A freed array: WAMR would read freed memory here.
  | _ => none

/-- The registered symbols, newest first. -/
def symbols (c : Process F) : List (SymbolView × Nat) := c.registry.filterMap c.symbolAt

/-- Links an import to the symbol that WAMR's rule takes. -/
def resolve (c : Process F) (link : Linking) (imp : Import) : BoundImport :=
  ⟨imp, (link.pick Prod.fst c.symbols imp).map Prod.snd⟩

/-! ### WAMR's handles -/

/-- `wasm_runtime_load`, when it succeeds. The imports are linked here. -/
def load (c : Process F) (link : Linking) (buf : Nat) (imports : List Import) :
    Process F × Nat :=
  ({ c with modules := c.modules.push (imports.map (c.resolve link)) }.acquire
    (.module c.modules.next) [.block buf, c.runtime], c.modules.next)

/-- `wasm_runtime_unload`. -/
def unload (c : Process F) (handle : Nat) : Process F :=
  { c with modules := c.modules.erase handle }.release (.module handle)

/-- `wasm_runtime_instantiate`, when it succeeds. -/
def instantiate (c : Process F) (module : Nat) : Process F × Nat :=
  ({ c with moduleInsts := c.moduleInsts.push module }.acquire (.moduleInst c.moduleInsts.next)
    [.module module, c.runtime], c.moduleInsts.next)

/-- `wasm_runtime_deinstantiate`. -/
def deinstantiate (c : Process F) (handle : Nat) : Process F :=
  { c with moduleInsts := c.moduleInsts.erase handle }.release (.moduleInst handle)

/-- `wasm_runtime_create_exec_env`, when it succeeds. -/
def createExecEnv (c : Process F) (moduleInst : Nat) : Process F × Nat :=
  ({ c with execEnvs := c.execEnvs.push moduleInst }.acquire (.execEnv c.execEnvs.next)
    [.moduleInst moduleInst, c.runtime], c.execEnvs.next)

/-- `wasm_runtime_destroy_exec_env`. -/
def destroyExecEnv (c : Process F) (handle : Nat) : Process F :=
  { c with execEnvs := c.execEnvs.erase handle }.release (.execEnv handle)

/-! ### Engines -/

/-- The start or the end of the runtime. Its end empties the registry. -/
def runtimeCall (c : Process F) : RuntimeCall → Process F
  | .fullInit true => c.acquire c.runtime []
  -- A failed initialisation starts nothing.
  | .fullInit false => c
  | .destroy => { c with registry := [] }.release c.runtime

/-- `Engine::new`. -/
def newEngine (c : Process F) (initOk : Bool) : Process F × Except Error Engine :=
  let r := c.eng.new initOk
  (r.2.1.foldl runtimeCall { c with eng := r.1 }, r.2.2)

/-- `Engine::clone`. -/
def cloneEngine (c : Process F) (e : Engine) : Process F :=
  { c with eng := c.eng.clone e }

/-- The drop of an `Engine`, with the drop of its `EngineInner` if it was the last clone. -/
def dropEngine (c : Process F) (e : Engine) : Process F :=
  let r := c.eng.drop e
  if r.2 then
    let q := r.1.dropInner
    q.2.foldl runtimeCall { c with eng := q.1 }
  else { c with eng := r.1 }

end Process

end Wamrx
