import Wamrx.Api

/-!
# `Wamrx.Session`: what the API means

The same operations as in `Wamrx.Api`, without a heap, pointers, counts, or a registry. A
`Session` remembers who defined which host function, and which values the user holds.

* A definition belongs to the linker that made it. It counts as long as the user holds the
  linker, or an instance that the linker made (`Session.holds`).
* A module keeps, for each of its imports, the definition that WAMR's rule took among those that
  counted when the module was loaded. Later definitions do not change it.
* A call of an import runs that definition if it still counts. If it does not, nothing is said
  about what the call does.

This is not translated from the source. `Proofs.session_refines` relates it to `World`.
-/

set_option autoImplicit false

namespace Wamrx

open Support

/-- One successful `define_func`, with the number of its linker. -/
structure Definition (F : Type) where
  linker : Nat
  module : Name
  name : Name
  ty : FuncType
  func : F
deriving DecidableEq, Repr

/-- What WAMR gets to see of a definition. -/
def Definition.view {F : Type} (d : Definition F) : SymbolView :=
  ⟨d.module, d.name, d.ty.signatureCString⟩

/-- An import of a loaded module, with the definition that it got. -/
structure Binding (F : Type) where
  target : Import
  definition : Option (Definition F)
deriving DecidableEq, Repr

/-- An instance: the linker that made it, and the imports of its module. -/
structure SessionInstance (F : Type) where
  linker : Nat
  bindings : List (Binding F)
deriving DecidableEq, Repr

/-- All definitions so far, newest first, and the values that the user holds. -/
structure Session (F : Type) where
  defs : List (Definition F)
  engines : Arena Unit
  linkers : Arena Unit
  modules : Arena (List (Binding F))
  instances : Arena (SessionInstance F)
deriving DecidableEq, Repr

namespace Session

variable {F : Type}

def init : Session F := ⟨[], Arena.empty, Arena.empty, Arena.empty, Arena.empty⟩

/-- The user holds the linker, or an instance that it made. -/
def holds (s : Session F) (l : Nat) : Bool :=
  (s.linkers.get? l).isSome || s.instances.any fun i => i.linker == l

/-- The definitions that count. -/
def counting (s : Session F) : List (Definition F) := s.defs.filter fun d => s.holds d.linker

/-- The import gets the definition that WAMR's rule takes among those that count. -/
def resolve (s : Session F) (link : Linking) (imp : Import) : Binding F :=
  ⟨imp, link.pick Definition.view s.counting imp⟩

/-- The user holds a value, of whatever kind. -/
def inUse (s : Session F) : Bool :=
  s.engines.any (fun _ => true) || s.linkers.any (fun _ => true) ||
    s.modules.any (fun _ => true) || s.instances.any (fun _ => true)

/-- Performs one operation, with this rule of WAMR for imports, on a host with pointers of
`usizeBits` bits. -/
def step (link : Linking) (usizeBits : Nat) (s : Session F) : Op F → Option (Session F)
  | .engineNew initOk =>
    -- The runtime is up while the user holds a value, and then nothing can fail.
    some { s with engines := if initOk || s.inUse then s.engines.push () else s.engines.skip }
  | .engineClone e => (s.engines.get? e).map fun _ => { s with engines := s.engines.push () }
  | .engineDrop e => (s.engines.take e).map fun engines => { s with engines := engines }
  | .linkerNew e => (s.engines.get? e).map fun _ => { s with linkers := s.linkers.push () }
  | .defineFunc l module name ty func registerOk =>
    (s.linkers.get? l).map fun _ =>
      if 0 ∈ module ∨ 0 ∈ name ∨ registerOk = false then s
      else { s with defs := ⟨l, module, name, ty, func⟩ :: s.defs }
  | .linkerDrop l => (s.linkers.take l).map fun linkers => { s with linkers := linkers }
  | .moduleNew e bytes loaded =>
    if bytes.length ≤ isizeMax usizeBits then
      (s.engines.get? e).map fun _ =>
        match loaded with
        | .ok imports => { s with modules := s.modules.push (imports.map (s.resolve link)) }
        | .error _ => { s with modules := s.modules.skip }
    else none
  | .moduleDrop m => (s.modules.take m).map fun modules => { s with modules := modules }
  | .instantiate l m result =>
    match s.linkers.get? l, s.modules.get? m with
    | some _, some bindings =>
      some { s with
        modules := s.modules.erase m
        instances := if result = .ok then s.instances.push ⟨l, bindings⟩ else s.instances.skip }
    | _, _ => none
  | .call i => (s.instances.get? i).map fun _ => s
  | .instanceDrop i =>
    (s.instances.take i).map fun instances => { s with instances := instances }

/-- What a call of the import with this definition does. -/
def dispatchBinding (s : Session F) (b : Binding F) : Dispatch F :=
  match b.definition with
  | none => .unlinked
  | some d => if s.holds d.linker then .closure d.func else .dangling

/-- What the instance calls as its import number `k`. -/
def dispatch (s : Session F) (i k : Nat) : Option (Dispatch F) := do
  let ins ← s.instances.get? i
  let b ← ins.bindings[k]?
  return s.dispatchBinding b

end Session

end Wamrx
