import Wamrx.Value

/-!
# `Wamrx.Signature`: WAMR's matcher for native signatures

When WAMR links an import to a registered symbol, it compares the type of the import with the
symbol's signature string: an opening parenthesis, one character for each parameter, a closing
parenthesis, and one character for the result if there is one.
-/

set_option autoImplicit false

namespace Wamrx

/-- WAMR's value types. -/
inductive WamrType where
  | i32
  | i64
  | f32
  | f64
  | v128
  | funcref
  | externref
deriving DecidableEq, Repr

/-- The type of an imported function. -/
structure ImportType where
  params : List WamrType
  results : List WamrType
deriving DecidableEq, Repr

/-- A type of the bindings among WAMR's. -/
def ValType.toWamr : ValType → WamrType
  | .i32 => .i32
  | .i64 => .i64
  | .f32 => .f32
  | .f64 => .f64

/-- The type of an import that has exactly the type of a host function. -/
def FuncType.importType (ty : FuncType) : ImportType :=
  ⟨ty.params.map ValType.toWamr, ty.results.map ValType.toWamr⟩

namespace WamrType

/-- The character of a numeric type. -/
def char : WamrType → Option UInt8
  | .i32 => some 'i'.toUInt8
  | .i64 => some 'I'.toUInt8
  | .f32 => some 'f'.toUInt8
  | .f64 => some 'F'.toUInt8
  | .v128 | .funcref | .externref => none

/-- The character stands for a parameter of the type. An `i32` may also be a pointer or a
string. -/
def acceptsParam (t : WamrType) (c : UInt8) : Bool :=
  t.char = some c ∨ (t = .i32 ∧ (c = '*'.toUInt8 ∨ c = '$'.toUInt8))

end WamrType

/-- One character for each parameter. Returns the rest of the string. -/
def matchParams : List WamrType → Name → Option Name
  | [], s => some s
  | _ :: _, [] => none
  | t :: ts, c :: s => if t.acceptsParam c then matchParams ts s else none

/-- The string behind the closing parenthesis. -/
def matchResults (results : List WamrType) (s : Name) : Bool :=
  match results with
  | [] => s = []
  -- A pointer or a string is no result, so the character must be the type's own.
  | [t] => t.char.toList = s ∧ s ≠ []
  -- A native function has one result at most.
  | _ :: _ :: _ => false

/-- The matcher. -/
def acceptsSignature (signature : Name) (ty : ImportType) : Bool :=
  match signature with
  | [] => false
  | c :: s =>
    match matchParams ty.params s with
    | some (c' :: s') =>
      c = '('.toUInt8 ∧ c' = ')'.toUInt8 ∧ matchResults ty.results s' = true
    | _ => false

end Wamrx
