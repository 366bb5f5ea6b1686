import Wamrx.Instance
import Wamrx.Support.Run

/-!
# `Wamrx.Api`: runs of the public API

`World` is the shared state together with the values that the user of the API holds. `Op` is
one call or one drop, with the answers that WAMR gives in it, and `World.step` performs it.
`none` says that a program cannot make the call: it has no such value.

The values of each type are numbered in the order in which they were made. A constructor that
fails burns its number, so that a number always names the same call.

A host function may use the API while it runs, so the calls it makes are operations like any
other. `dispatch` is what the trampoline finds when an instance calls one of its imports.
-/

set_option autoImplicit false

namespace Wamrx

open Support

/-- The shared state and the live values. -/
structure World (F : Type) where
  proc : Process F
  engines : Arena Engine
  linkers : Arena Linker
  modules : Arena Module
  instances : Arena Instance

/-- One call of the API or one drop. -/
inductive Op (F : Type) where
  | engineNew (initOk : Bool)
  | engineClone (e : Nat)
  | engineDrop (e : Nat)
  | linkerNew (e : Nat)
  | defineFunc (l : Nat) (module name : Name) (ty : FuncType) (func : F) (registerOk : Bool)
  | linkerDrop (l : Nat)
  | moduleNew (e : Nat) (bytes : List UInt8) (loaded : LoadResult)
  | moduleDrop (m : Nat)
  | instantiate (l m : Nat) (result : InstantiateResult)
  | call (i : Nat)
  | instanceDrop (i : Nat)

/-- Adds the value that a constructor returned, or burns its number. -/
def addResult {α ε : Type} (a : Arena α) : Except ε α → Arena α
  | .ok x => a.push x
  | .error _ => a.skip

namespace World

variable {F : Type}

def init : World F := ⟨Process.init, Arena.empty, Arena.empty, Arena.empty, Arena.empty⟩

/-- Performs one operation, with this rule of WAMR for imports, on a host with pointers of
`usizeBits` bits. No slice of bytes is longer than `isize::MAX`. -/
def step (link : Linking) (usizeBits : Nat) (w : World F) : Op F → Option (World F)
  | .engineNew initOk =>
    let r := w.proc.newEngine initOk
    some { w with proc := r.1, engines := addResult w.engines r.2 }
  | .engineClone e =>
    (w.engines.get? e).map fun en =>
      { w with proc := w.proc.cloneEngine en, engines := w.engines.push en }
  | .engineDrop e =>
    (w.engines.get? e).map fun en =>
      { w with proc := w.proc.dropEngine en, engines := w.engines.erase e }
  | .linkerNew e =>
    (w.engines.get? e).map fun en =>
      let r := Linker.new w.proc en
      { w with proc := r.1, linkers := w.linkers.push r.2 }
  | .defineFunc l module name ty func registerOk =>
    (w.linkers.get? l).map fun li =>
      { w with proc := (li.defineFunc w.proc module name ty func registerOk).1 }
  | .linkerDrop l =>
    (w.linkers.get? l).map fun li =>
      { w with proc := li.drop w.proc, linkers := w.linkers.erase l }
  | .moduleNew e bytes loaded =>
    if bytes.length ≤ isizeMax usizeBits then
      (w.engines.get? e).map fun en =>
        let r := Module.new link usizeBits w.proc en bytes loaded
        { w with proc := r.1, modules := addResult w.modules r.2 }
    else none
  | .moduleDrop m =>
    (w.modules.get? m).map fun mo =>
      { w with proc := mo.drop w.proc, modules := w.modules.erase m }
  | .instantiate l m result =>
    match w.linkers.get? l, w.modules.get? m with
    | some li, some mo =>
      let r := li.instantiate w.proc mo result
      -- The module is moved in, whatever the outcome.
      some { w with proc := r.1, modules := w.modules.erase m,
                    instances := addResult w.instances r.2 }
    | _, _ => none
  -- A call changes none of this state. Its host functions use the API through operations.
  | .call i => (w.instances.get? i).map fun _ => w
  | .instanceDrop i =>
    (w.instances.get? i).map fun ins =>
      { w with proc := ins.drop w.proc, instances := w.instances.erase i }

end World

/-! ### Host calls -/

/-- What happens when an import is called: WAMR traps on an unlinked import, and otherwise the
trampoline reads the context behind the attachment pointer. -/
inductive Dispatch (F : Type) where
  | unlinked
  | dangling
  | closure (func : F)
deriving DecidableEq, Repr

namespace Process

variable {F : Type}

/-- The imports of a loaded module, as they were bound at load. -/
def importsOf (c : Process F) (m : Module) : List BoundImport := (c.modules.get? m.raw).getD []

/-- What the trampoline finds at the attachment pointer of an import. -/
def dispatchImport (c : Process F) (b : BoundImport) : Dispatch F :=
  match b.attachment with
  | none => .unlinked
  | some addr =>
    match c.heap.get? addr with
    | some (.context _ func) => .closure func
    | _ => .dangling

end Process

/-- What the trampoline finds when the instance calls its import number `k`. -/
def World.dispatch {F : Type} (w : World F) (i k : Nat) : Option (Dispatch F) := do
  let ins ← w.instances.get? i
  let b ← (w.proc.importsOf ins.module)[k]?
  return w.proc.dispatchImport b

end Wamrx
