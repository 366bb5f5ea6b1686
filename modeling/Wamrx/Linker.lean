import Wamrx.Process

/-!
# `Wamrx.Linker`: host functions and who keeps them alive

`linker.rs` without the trampoline. `NativeEntry.register` allocates the storage of one host
function and registers it with WAMR. A `LinkerState` owns the entries of one linker. The
`Linker` and every `Instance` it produced share it through an `Rc`, and its drop unregisters
the entries.
-/

set_option autoImplicit false

namespace Wamrx

open Support

/-- `Linker`: an `Rc` pointer to its `LinkerState`. -/
structure Linker where
  state : Nat
deriving DecidableEq, Repr

/-- `interior_nul`. -/
def interiorNul (what : String) : Error :=
  .instantiate (what ++ " contains an interior NUL byte")

/-- The error of a registration that WAMR refuses. -/
def registrationFailed : Error := .instantiate "failed to register host function with WAMR"

namespace NativeEntry

/-- The blocks that WAMR has pointers into. -/
def blocks (n : NativeEntry) : List Nat :=
  [n.moduleName, n.field, n.signature, n.context, n.symbol]

/-- The node of the registry that the entry is responsible for. -/
def node (n : NativeEntry) : NativesNode := ⟨n.moduleName, n.symbol⟩

/-- The drop of the fields, in their order. -/
def drop {F : Type} (c : Process F) (n : NativeEntry) : Process F :=
  ((((c.free n.moduleName).free n.field).free n.signature).free n.context).free n.symbol

/-- `NativeEntry::register`. The flag is the answer of `wasm_runtime_register_natives_raw`. -/
def register {F : Type} (c : Process F) (module name : Name) (ty : FuncType) (func : F)
    (registerOk : Bool) : Process F × Except Error NativeEntry :=
  -- A text that `CString::new` refuses is freed with its error.
  if 0 ∈ module then (c, .error (interiorNul "module name"))
  else
    let (c, moduleName) := c.alloc (.cstring module)
    -- The early return drops the one local there is.
    if 0 ∈ name then (c.free moduleName, .error (interiorNul "function name"))
    else
      let (c, field) := c.alloc (.cstring name)
      let (c, signature) := c.alloc (.cstring ty.signatureCString)
      let (c, context) := c.alloc (.context ty func)
      let (c, symbol) := c.alloc (.symbols ⟨field, signature, context⟩)
      let n : NativeEntry := ⟨moduleName, field, signature, context, symbol⟩
      if registerOk then
        (c.registerNatives n.node n.blocks, .ok n)
      else
        -- The locals are dropped in the reverse order of their declaration.
        (((((c.free symbol).free context).free signature).free field).free moduleName,
          .error registrationFailed)

end NativeEntry

namespace LinkerState

/-- `Vec::push`. A full buffer is replaced by a larger one, and the entries move over. -/
def push {F : Type} (c : Process F) (s : LinkerState) (n : NativeEntry) :
    Process F × LinkerState :=
  if s.entries.length = s.cap then
    let (c, buf) := c.alloc .entries
    let c := match s.buf with
      -- The entries are in the new buffer, so the old one is empty.
      | some old => c.free old
      | none => c
    (c, { s with buf := some buf, cap := max 4 (2 * s.cap), entries := s.entries ++ [n] })
  else
    (c, { s with entries := s.entries ++ [n] })

/-- The drop of a `LinkerState`: its `Drop`, then `_engine`, then the entries and their
buffer. -/
def drop {F : Type} (c : Process F) (s : LinkerState) : Process F :=
  let c := s.entries.foldl (fun c n => c.unregisterNatives n.moduleName n.symbol) c
  let c := c.dropEngine s.engine
  let c := s.entries.foldl NativeEntry.drop c
  match s.buf with
  | some buf => c.free buf
  | none => c

/-- The drop of one `Rc<LinkerState>`. -/
def dropRc {F : Type} (c : Process F) (state : Nat) : Process F :=
  let r := Rc.drop c.states state
  let c := { c with states := r.1 }
  match r.2 with
  -- The last pointer is gone, and the state is dropped with it.
  | some s => drop c s
  | none => c

end LinkerState

namespace Linker

/-- `Linker::new`. -/
def new {F : Type} (c : Process F) (e : Engine) : Process F × Linker :=
  let c := c.cloneEngine e
  ({ c with states := Rc.new c.states ⟨e, none, 0, []⟩ }, ⟨c.states.next⟩)

/-- `Linker::define_func`. -/
def defineFunc {F : Type} (c : Process F) (l : Linker) (module name : Name) (ty : FuncType)
    (func : F) (registerOk : Bool) : Process F × Except Error Unit :=
  match NativeEntry.register c module name ty func registerOk with
  | (c, .error err) => (c, .error err)
  | (c, .ok n) =>
    match Rc.deref? c.states l.state with
    | some s =>
      let (c, s) := s.push c n
      ({ c with states := Rc.update c.states l.state fun _ => s }, .ok ())
    -- A `Linker` keeps its state alive, so this branch is not taken.
    | none => (c, .ok ())

/-- The drop of a `Linker`. -/
def drop {F : Type} (c : Process F) (l : Linker) : Process F := LinkerState.dropRc c l.state

end Linker

end Wamrx
