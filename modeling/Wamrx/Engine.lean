import Wamrx.Error
import Wamrx.Support.Rc
import Wamrx.Support.Run

/-!
# `Wamrx.Engine`: the process-global runtime and its reference count

`engine.rs` counts twice. `RUNTIME_REFCOUNT` counts the `EngineInner` values of the process,
and each `EngineInner` sits behind an `Rc` that counts the `Engine` clones made of it.
`EngineState` holds both counters and the state of the WAMR runtime they control.

The operations follow the source: `EngineState.new` is the critical section of `Engine::new`,
`EngineState.clone` and `EngineState.drop` are the `Rc` operations, and
`EngineState.dropInner` is the critical section of `Drop for EngineInner`. Each returns the
calls it makes into WAMR.

`EngineSystem` runs them on any number of threads. Dropping the last clone and the drop of the
`EngineInner` behind it are two steps, because other threads may take the mutex in between.
-/

set_option autoImplicit false

namespace Wamrx

open Support

/-- `EngineInner`, a unit struct: it exists for its `Drop`. -/
abbrev EngineInner := Unit

/-- An `Engine` value: the `Rc` pointer to its `EngineInner`. -/
structure Engine where
  inner : Nat
deriving DecidableEq, Repr

/-- A call that starts or ends the runtime. -/
inductive RuntimeCall where
  | fullInit (ok : Bool)
  | destroy
deriving DecidableEq, Repr

/-- The counters and the runtime. `incarnation` numbers the runtimes of the process: it counts
the successful `wasm_runtime_full_init` calls. -/
structure EngineState where
  refcount : Nat
  initialized : Bool
  incarnation : Nat
  inners : Rc.Table EngineInner
deriving DecidableEq, Repr

namespace EngineState

/-- The process before its first engine. -/
def init : EngineState := ⟨0, false, 0, Arena.empty⟩

/-- `*count += 1; Ok(Engine { inner: Rc::new(EngineInner) })`. -/
def count (s : EngineState) : EngineState × Engine :=
  ({ s with refcount := s.refcount + 1, inners := Rc.new s.inners () }, ⟨s.inners.next⟩)

/-- `Engine::new`, with the result that `wasm_runtime_full_init` gives if it is called. -/
def new (s : EngineState) (initOk : Bool) :
    EngineState × List RuntimeCall × Except Error Engine :=
  if s.refcount = 0 then
    if initOk then
      let r := count { s with initialized := true, incarnation := s.incarnation + 1 }
      (r.1, [.fullInit true], .ok r.2)
    else
      -- The counter keeps its zero, so that the next `Engine::new` tries again.
      (s, [.fullInit false], .error .runtimeInit)
  else
    let r := count s
    -- The runtime is up already: only the counter moves.
    (r.1, [], .ok r.2)

/-- `Engine::clone`. The clone is the same pointer. -/
def clone (s : EngineState) (e : Engine) : EngineState :=
  { s with inners := Rc.clone s.inners e.inner }

/-- The drop of an `Engine` value. The flag says that it was the last clone, so that its
`EngineInner` is dropped next. -/
def drop (s : EngineState) (e : Engine) : EngineState × Bool :=
  let r := Rc.drop s.inners e.inner
  ({ s with inners := r.1 }, r.2.isSome)

/-- `Drop for EngineInner`. `*count -= 1` is truncated here, and
`Proofs.refcount_pos_of_dropping` shows that the source never subtracts from zero. -/
def dropInner (s : EngineState) : EngineState × List RuntimeCall :=
  let count := s.refcount - 1
  if count = 0 then
    ({ s with refcount := count, initialized := false }, [.destroy])
  else
    ({ s with refcount := count }, [])

end EngineState

/-- A thread of the process. -/
abbrev ThreadId := Nat

/-- The engines of a process with any number of threads. `engines` holds the `Engine` values
with the thread they live on (`Engine` is `!Send`). `dropping` lists the threads that dropped
a last clone and have not entered the critical section of `Drop for EngineInner` yet. -/
structure EngineSystem where
  st : EngineState
  engines : Arena (ThreadId × Engine)
  dropping : List ThreadId
  calls : List RuntimeCall
deriving DecidableEq, Repr

/-- The atomic steps of the threads. -/
inductive EngineOp where
  | new (t : ThreadId) (initOk : Bool)
  | clone (t : ThreadId) (e : Nat)
  | drop (t : ThreadId) (e : Nat)
  | dropInner (t : ThreadId)
deriving DecidableEq, Repr

namespace EngineSystem

def init : EngineSystem := ⟨EngineState.init, Arena.empty, [], []⟩

/-- One atomic step. A thread in the middle of a drop finishes it first, and a thread touches
only its own engines. -/
def step (s : EngineSystem) : EngineOp → Option EngineSystem
  | .new t initOk =>
    -- `Engine::new` holds the mutex to its end, so it is one step.
    if t ∈ s.dropping then none
    else
      match s.st.new initOk with
      | (st, calls, .ok e) =>
        some { s with st := st, engines := s.engines.push (t, e), calls := s.calls ++ calls }
      | (st, calls, .error _) => some { s with st := st, calls := s.calls ++ calls }
  | .clone t e =>
    match s.engines.get? e with
    | some (t', en) =>
      if t' = t ∧ t ∉ s.dropping then
        some { s with st := s.st.clone en, engines := s.engines.push (t, en) }
      else none
    | none => none
  | .drop t e =>
    match s.engines.get? e with
    | some (t', en) =>
      if t' = t ∧ t ∉ s.dropping then
        let r := s.st.drop en
        some { s with st := r.1, engines := s.engines.erase e,
                      dropping := if r.2 then t :: s.dropping else s.dropping }
      else none
    | none => none
  | .dropInner t =>
    if t ∈ s.dropping then
      let r := s.st.dropInner
      some { s with st := r.1, dropping := s.dropping.erase t, calls := s.calls ++ r.2 }
    else none

end EngineSystem

end Wamrx
