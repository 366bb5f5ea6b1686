import Wamrx.Engine
import Mathlib.Logic.Function.Basic

/-!
# `Wamrx.ThreadEnv`: the WAMR environment of each thread

WAMR wants an environment on every thread that instantiates or calls Wasm. `full_init` makes
one for the thread that runs it. `thread.rs` makes one for any other thread: the thread-local
`THREAD_ENV` is created at the first `ensure_thread_env` on a thread, calls
`wasm_runtime_init_thread_env` then, and calls `wasm_runtime_destroy_thread_env` when the
thread exits.

`ThreadSystem` runs these on top of `EngineSystem`. `envs` is WAMR's side: the incarnation of
the runtime in which a thread's environment was initialised, if it is. `guards` is the side of
`thread.rs`. `log` lists the WAMR calls that depend on the environment of their thread, each
with what it found.
-/

set_option autoImplicit false

namespace Wamrx

open Support

/-- A WAMR call that depends on the environment of the thread it runs on. -/
inductive EnvUse where
  | instantiate
  | callWasmA
  | destroyThreadEnv
deriving DecidableEq, Repr

/-- One such call: the incarnation in which the environment of its thread was initialised, and
the incarnation of the runtime, at the time of the call. -/
structure EnvCall where
  thread : ThreadId
  use : EnvUse
  env : Option Nat
  runtime : Option Nat
deriving DecidableEq, Repr

/-- The call found its thread's environment initialised in the runtime that is running. -/
def EnvCall.Matches (c : EnvCall) : Prop := c.runtime ≠ none ∧ c.env = c.runtime

instance (c : EnvCall) : Decidable c.Matches := inferInstanceAs (Decidable (_ ∧ _))

/-- The threads of a process. `guards t` is the thread-local `THREAD_ENV` of `t`, with the
incarnation in which it was created. `initThread` is the thread that ran the last successful
`wasm_runtime_full_init`. -/
structure ThreadSystem where
  sys : EngineSystem
  envs : ThreadId → Option Nat
  guards : ThreadId → Option Nat
  initThread : Option ThreadId
  exited : List ThreadId
  log : List EnvCall

/-- The atomic steps of the threads. `e` is an `Engine` value of the thread: every `Module`,
`Linker` and `Instance` holds one. `resultsFit` says that the `results` buffer given to
`Func::call` is long enough. -/
inductive ThreadOp where
  | engine (op : EngineOp)
  | instantiate (t : ThreadId) (e : Nat)
  | call (t : ThreadId) (e : Nat) (resultsFit : Bool)
  | exit (t : ThreadId)
deriving DecidableEq, Repr

/-- The thread that takes the step. -/
def EngineOp.thread : EngineOp → ThreadId
  | .new t _ => t
  | .clone t _ => t
  | .drop t _ => t
  | .dropInner t => t

namespace ThreadSystem

def init : ThreadSystem := ⟨EngineSystem.init, fun _ => none, fun _ => none, none, [], []⟩

/-- The incarnation of the running runtime. -/
def runtime (s : ThreadSystem) : Option Nat :=
  if s.sys.st.initialized then some s.sys.st.incarnation else none

/-! ### WAMR -/

/-- What `wasm_runtime_full_init` and `wasm_runtime_destroy` do to the environments. -/
def runtimeCall (t : ThreadId) (s : ThreadSystem) : RuntimeCall → ThreadSystem
  | .fullInit true =>
    { s with envs := Function.update s.envs t (some s.sys.st.incarnation), initThread := some t }
  | .fullInit false => s
  | .destroy => { s with envs := fun _ => none }

/-- `wasm_runtime_init_thread_env`, on the calling thread. -/
def initThreadEnv (s : ThreadSystem) (t : ThreadId) : ThreadSystem :=
  { s with envs := Function.update s.envs t s.runtime }

/-- A call that depends on the environment of its thread. -/
def wamrCall (s : ThreadSystem) (t : ThreadId) (use : EnvUse) : ThreadSystem :=
  { s with log := s.log ++ [⟨t, use, s.envs t, s.runtime⟩] }

/-- `wasm_runtime_destroy_thread_env`, on the calling thread. -/
def destroyThreadEnv (s : ThreadSystem) (t : ThreadId) : ThreadSystem :=
  let s := s.wamrCall t .destroyThreadEnv
  { s with envs := Function.update s.envs t none }

/-! ### `thread.rs` and its callers -/

/-- `ensure_thread_env`. It is lazy: only the first call on a thread runs
`ThreadEnvGuard::new`. -/
def ensureThreadEnv (s : ThreadSystem) (t : ThreadId) : ThreadSystem :=
  match s.guards t with
  | some _ => s
  | none =>
    { s.initThreadEnv t with
      guards := Function.update s.guards t (some s.sys.st.incarnation) }

/-- The WAMR side of `Instance::new` up to `wasm_runtime_instantiate`. -/
def instantiate (s : ThreadSystem) (t : ThreadId) : ThreadSystem :=
  (s.ensureThreadEnv t).wamrCall t .instantiate

/-- The WAMR side of `Func::call`. The length check of `results` comes after
`ensure_thread_env`. -/
def call (s : ThreadSystem) (t : ThreadId) (resultsFit : Bool) : ThreadSystem :=
  if resultsFit then (s.ensureThreadEnv t).wamrCall t .callWasmA else s.ensureThreadEnv t

/-- The exit of a thread drops its `THREAD_ENV`, if it was created. -/
def exitThread (s : ThreadSystem) (t : ThreadId) : ThreadSystem :=
  match s.guards t with
  | some _ => { s.destroyThreadEnv t with exited := t :: s.exited }
  | none => { s with exited := t :: s.exited }

/-- The thread is there, is not in the middle of a drop, and owns the engine. -/
def owns (s : ThreadSystem) (t : ThreadId) (e : Nat) : Bool :=
  t ∉ s.exited ∧ t ∉ s.sys.dropping ∧ (s.sys.engines.get? e).map Prod.fst = some t

/-- One atomic step. An engine step hands its WAMR calls on to the environments. -/
def step (s : ThreadSystem) : ThreadOp → Option ThreadSystem
  | .engine op =>
    if op.thread ∈ s.exited then none
    else
      match s.sys.step op with
      | some sys =>
        some ((sys.calls.drop s.sys.calls.length).foldl (runtimeCall op.thread)
          { s with sys := sys })
      | none => none
  | .instantiate t e => if s.owns t e then some (s.instantiate t) else none
  | .call t e resultsFit => if s.owns t e then some (s.call t resultsFit) else none
  | .exit t =>
    -- The engines of the thread may be leaked: nothing drops them at its exit.
    if t ∈ s.exited ∨ t ∈ s.sys.dropping then none else some (s.exitThread t)

end ThreadSystem

end Wamrx
