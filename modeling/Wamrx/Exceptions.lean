import Wamrx.Value

/-!
# `Wamrx.Exceptions`: the exception slot of an instance

WAMR keeps one exception slot of 128 bytes for each module instance. A trap and
`wasm_runtime_set_exception` write it: a prefix, and as much of the text as fits. Nothing in the
bindings clears it.
-/

set_option autoImplicit false

namespace Wamrx

/-- What WAMR keeps of the text of an exception: `snprintf(.., "Exception: %s", text)` into 128
bytes, the last of which is the NUL. -/
def storedException (text : Name) : Name := ("Exception: ".toUTF8.data.toList ++ text).take 127

/-- The slot of one instance, in a state. -/
structure ExceptionSlot (σ : Type) where
  /-- `wasm_runtime_get_exception`. -/
  get : σ → Option Name
  /-- A trap with the text, or `wasm_runtime_set_exception`. -/
  set : Name → σ → σ
  get_set : ∀ text s, get (set text s) = some (storedException text)

example : storedException "unreachable".toUTF8.data.toList
    = "Exception: unreachable".toUTF8.data.toList := rfl

end Wamrx
