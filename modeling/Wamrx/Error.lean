import Wamrx.Value

/-!
# `Wamrx.Error`: the errors of the API

The constructors and fields of `error.rs`. A name in an error is the name the caller asked
for. A message is WAMR's diagnostic or one of the texts of the bindings.
-/

set_option autoImplicit false

namespace Wamrx

/-- `Error`. -/
inductive Error where
  | runtimeInit
  | moduleLoad (msg : String)
  | instantiate (msg : String)
  | funcNotFound (name : Name)
  | trap (msg : String)
  | signatureMismatch (expected provided : Nat)
  | globalNotFound (name : Name)
  | memoryNotFound (name : Name)
  | globalImmutable
  | typeMismatch (expected provided : ValType)
  | unsupportedType
deriving DecidableEq, Repr

end Wamrx
