import Mathlib.Logic.Function.Basic
import Wamrx.Guest

/-!
# `Wamrx.CallHistory`: calls, traps and the exception slots

WAMR keeps one exception slot for each module instance. `ExnState` is these slots, with a record of
every exception ever raised.

What a called function does is a `Guest`, and what its host functions do is given with it: each of
them is a `HostCode`, which leaves a result, or panics, or calls `Func::call` again, on the same
instance or on another one, and goes on depending on the outcome. `Call.perform` is one call from
outside, and `history` is many of them.
-/

set_option autoImplicit false

namespace Wamrx

/-- The exception slots of the instances, and the texts of the exceptions raised so far. -/
structure ExnState where
  slots : Nat → Option Name
  raised : List (Nat × Name)

namespace ExnState

/-- Fresh instances: no slot is written. -/
def init : ExnState := ⟨fun _ => none, []⟩

/-- A trap on the instance, or `wasm_runtime_set_exception`. -/
def raise (inst : Nat) (text : Name) (s : ExnState) : ExnState :=
  { slots := Function.update s.slots inst (some (storedException text))
    raised := s.raised ++ [(inst, text)] }

theorem slots_raise (inst : Nat) (text : Name) (s : ExnState) :
    (s.raise inst text).slots inst = some (storedException text) := Function.update_self _ _ _

/-- The slot of the instance. -/
def slot (inst : Nat) : ExceptionSlot ExnState where
  get s := s.slots inst
  set := raise inst
  get_set := slots_raise inst

end ExnState

/-- What a host function does, and what the next host functions do when it makes a call: `hosts`
says that from the host calls which that execution has made, the present one included. -/
inductive HostCode where
  | leave (result : Option Val)
  | panic
  | call (f : Func) (params results : List Val) (body : Guest) (hosts : List HostCall → HostCode)
      (junk : Nat → BitVec 32) (next : CallOutcome → HostCode)

/-- A call of an import, where the host functions do what `host` says. -/
def hostStep (host : List HostCall → ExnState → HostReturn × ExnState) (k : Nat) (args : List Val)
    (t : Traced ExnState) : Option (HostReturn × Traced ExnState) :=
  let calls := t.calls ++ [(k, args)]
  let r := host calls t.state
  some (r.1, ⟨r.2, calls⟩)

/-- Executes a function of the instance. -/
def Guest.execute (inst : Nat) (host : List HostCall → ExnState → HostReturn × ExnState)
    (body : Guest) (s : ExnState) : Option (GuestEnd × ExnState) :=
  (body.run (ExnState.slot inst).traced (hostStep host) ⟨s, []⟩).map fun r => (r.1, r.2.state)

/-- Executes a host function that the instance has called. -/
def HostCode.run : HostCode → Nat → ExnState → HostReturn × ExnState
  | .leave result, _, s => (⟨result, none⟩, s)
  -- The trampoline turns the panic into an exception on the calling instance.
  | .panic, inst, s => (⟨none, some hostFunctionPanicked⟩, s.raise inst hostFunctionPanicked)
  | .call f params results body hosts junk next, inst, s =>
    let r := f.invoke (ExnState.slot f.inst)
      (fun _ => body.execute f.inst fun calls => (hosts calls).run f.inst) junk params results s
    -- The host function may handle an inner error: `next` decides what follows.
    (next r.1).run inst r.2

/-- One call from outside: the function, the arguments, the caller's buffer of results, what the
function does if it is run, what its host functions do, and what WAMR leaves to chance in the
results. -/
structure Call where
  func : Func
  params : List Val
  results : List Val
  body : Guest
  hosts : List HostCall → HostCode
  junk : Nat → BitVec 32

namespace Call

/-- What executing the function does. -/
def execute (c : Call) (s : ExnState) : Option (GuestEnd × ExnState) :=
  c.body.execute c.func.inst (fun calls => (c.hosts calls).run c.func.inst) s

/-- Performs the call. -/
def perform (c : Call) (s : ExnState) : CallOutcome × ExnState :=
  c.func.invoke (ExnState.slot c.func.inst) (fun _ => c.execute) c.junk c.params c.results s

end Call

/-- The exception slots after a history of calls on fresh instances. -/
def history (calls : List Call) : ExnState :=
  calls.foldl (fun s c => (c.perform s).2) ExnState.init

end Wamrx
