import Wamrx.Linker
import Wamrx.Module

/-!
# `Wamrx.Instance`: instances

`Instance::new` and the drop of an `Instance`, from `instance.rs`. An instance owns its module
and shares the `LinkerState` of the linker that made it.
-/

set_option autoImplicit false

namespace Wamrx

open Support

/-- `Instance`. -/
structure Instance where
  moduleInst : Nat
  execEnv : Nat
  module : Module
  linkerState : Nat
deriving DecidableEq, Repr

/-- What WAMR answers to `wasm_runtime_instantiate` and `wasm_runtime_create_exec_env`. -/
inductive InstantiateResult where
  | ok
  | instantiateFailed (errBuf : Name)
  | execEnvFailed
deriving DecidableEq, Repr

namespace Instance

/-- `Instance::new`. On an error the parameters are dropped, the last one first. -/
def new {F : Type} (c : Process F) (m : Module) (linkerState : Nat)
    (result : InstantiateResult) : Process F × Except Error Instance :=
  match result with
  | .instantiateFailed errBuf =>
    (m.drop (LinkerState.dropRc c linkerState), .error (.instantiate (cstrBufToString errBuf)))
  | .execEnvFailed =>
    let (c, moduleInst) := c.instantiate m.raw
    -- There is an instance by now, and no `Instance` to drop it.
    let c := c.deinstantiate moduleInst
    (m.drop (LinkerState.dropRc c linkerState),
      .error (.instantiate "failed to create execution environment"))
  | .ok =>
    let (c, moduleInst) := c.instantiate m.raw
    let (c, execEnv) := c.createExecEnv moduleInst
    (c, .ok ⟨moduleInst, execEnv, m, linkerState⟩)

/-- The drop of an `Instance`: its `Drop`, then the module and the linker state. -/
def drop {F : Type} (c : Process F) (i : Instance) : Process F :=
  -- The execution environment belongs to the module instance, so it goes first.
  let c := (c.destroyExecEnv i.execEnv).deinstantiate i.moduleInst
  LinkerState.dropRc (i.module.drop c) i.linkerState

end Instance

/-- `Linker::instantiate_with`. -/
def Linker.instantiate {F : Type} (c : Process F) (l : Linker) (m : Module)
    (result : InstantiateResult) : Process F × Except Error Instance :=
  Instance.new { c with states := Rc.clone c.states l.state } m l.state result

end Wamrx
