import Wamrx.Guest
import Wamrx.Session

/-!
# `Wamrx.Embedding`: a program that embeds WAMR

`Wamrx.Api` is about the values of a program, and `Wamrx.Guest` about one call with its host
functions at hand. Here a function of an instance is called in the process that a run of the API
has reached. The host functions are what the heap holds behind the attachment pointers of the
module's imports, and they may use the API themselves while they run: they define functions, load
and instantiate modules, and drop values, the linker that defined them included. They may also make
calls, on this instance or on others. What the closures keep for themselves, and what these calls
leave in the exception slot of the instance, is a state `σ` of which nothing is said.

`callIn` executes this. `Guest.meaning` says what is meant: a host call runs the closure that
the session has bound to the import, or traps if there is none. It is not translated from the
source. `Proofs.embedded_call` compares the two.
-/

set_option autoImplicit false

namespace Wamrx

open Support

/-! ### Execution -/

/-- The import number `k` of the instance, and the context behind its attachment pointer. -/
def World.context {F : Type} (w : World F) (i k : Nat) :
    Option (Import × Dispatch (FuncType × F)) := do
  let ins ← w.instances.get? i
  let b ← (w.proc.importsOf ins.module)[k]?
  return (b.target, match b.attachment with
    | none => .unlinked
    | some addr =>
      match w.proc.heap.get? addr with
      | some (.context ty func) => .closure (ty, func)
      | _ => .dangling)

/-- What the program and its environment decide: WAMR's rule for imports, the exception that WAMR
raises for an unlinked one, what a closure does with the API when it is called, and what WAMR leaves
to chance. -/
structure Embedding (σ : Type) where
  link : Linking
  usizeBits : Nat
  unlinkedText : Import → Name
  uses : Traced σ → List (Op (HostFunc σ))
  junk : Nat → Junk

/-- The process, and the state of the closures. -/
structure EmbeddedState (σ : Type) where
  world : World (HostFunc σ)
  own : σ

/-- The closures and their calls, in a process. -/
def Traced.inWorld {σ : Type} (t : Traced σ) (w : World (HostFunc σ)) : Traced (EmbeddedState σ) :=
  ⟨⟨w, t.state⟩, t.calls⟩

/-- The exception slot of the instance, in the process. -/
def ExceptionSlot.embedded {σ : Type} (slot : ExceptionSlot σ) :
    ExceptionSlot (EmbeddedState σ) where
  get s := slot.get s.own
  set text s := { s with own := slot.set text s.own }
  get_set text s := slot.get_set text s.own

/-- Performs operations of the API. One that names a value which is not there any more can not be
written down, and is passed over. -/
def World.perform {σ : Type} (e : Embedding σ) (w : World (HostFunc σ))
    (ops : List (Op (HostFunc σ))) : World (HostFunc σ) :=
  attempt (World.step e.link e.usizeBits) w ops

/-- A call of the import number `k` of the instance `i`. `none` marks a call of a closure which is
gone, one that frees the closure while it is running, and one that goes past its slots. -/
def World.callImport {σ : Type} (e : Embedding σ) (slot : ExceptionSlot σ) (i k : Nat)
    (args : List Val) (t : Traced (EmbeddedState σ)) :
    Option (HostReturn × Traced (EmbeddedState σ)) :=
  match t.state.world.context i k with
  | some (imp, .unlinked) =>
    let text := e.unlinkedText imp
    some (⟨none, some text⟩, slot.embedded.traced.set text t)
  | some (_, .closure (ty, func)) => do
    let (r, called) ← Wamrx.callImport slot ⟨ty, func⟩ (e.junk t.calls.length) k args
      ⟨t.state.own, t.calls⟩
    -- The closure uses the API before it returns or panics.
    let world := t.state.world.perform e (e.uses called)
    match world.context i k with
    | some (_, .closure _) => some (r, called.inWorld world)
    -- The trampoline still reads the context when the closure has returned.
    | _ => none
  | _ => none

/-- `Func::call` of an exported function of the instance `i`. -/
def callIn {σ : Type} (e : Embedding σ) (slot : ExceptionSlot σ) (resultJunk : Nat → BitVec 32)
    (i : Nat) : FuncType → (List Val → Guest) → List Val → List Val → Traced (EmbeddedState σ) →
    CallOutcome × Traced (EmbeddedState σ) :=
  callBody slot.embedded.traced (World.callImport e slot i) resultJunk i

/-! ### What is meant -/

/-- The same operations, in the session. -/
def Session.perform {σ : Type} (e : Embedding σ) (s : Session (HostFunc σ))
    (ops : List (Op (HostFunc σ))) : Session (HostFunc σ) :=
  attempt (Session.step e.link e.usizeBits) s ops

/-- What a call means: how it ends, what the closures leave behind and which of them are called, and
what they do with the API. -/
structure Meaning (σ : Type) where
  ending : GuestEnd
  final : Traced σ
  ops : List (Op (HostFunc σ))

namespace Guest

/-- Calls the closures that the imports are bound to. An exception that is there when a closure
comes back ends the execution. -/
def meaning {σ : Type} (e : Embedding σ) (slot : ExceptionSlot σ)
    (bindings : List (Binding (HostFunc σ))) : Guest → Traced σ → Meaning σ
  | .ret values, t => ⟨.returned values, t, []⟩
  | .trap text, t => ⟨.raised text, slot.traced.set text t, []⟩
  | .callHost k args next, t =>
    match bindings[k]? with
    | some ⟨_, some d⟩ =>
      let outcome := d.func.run args (d.ty.results.map ValType.defaultValue) t.state
      let t : Traced σ := ⟨outcome.2, t.calls ++ [(k, args)]⟩
      if outcome.1.panicked then
        let t := slot.traced.set hostFunctionPanicked t
        ⟨.raised hostFunctionPanicked, t, e.uses t⟩
      else if (slot.get outcome.2).isSome then ⟨.stopped, t, e.uses t⟩
      else
        let m := (next (d.ty.received outcome.1.results)).meaning e slot bindings t
        ⟨m.ending, m.final, e.uses t ++ m.ops⟩
    | some ⟨imp, none⟩ =>
      let text := e.unlinkedText imp
      ⟨.raised text, slot.traced.set text t, []⟩
    -- The import is not declared. Validation excludes it.
    | none => ⟨.stopped, t, []⟩

end Guest

end Wamrx
