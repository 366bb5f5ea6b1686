import Wamrx.Global

/-!
# `Wamrx.SharedGlobals`: globals that the module and the host use

The host reads and writes a global through `Instance::get_global`, `Global::get` and `Global::set`.
The module has `global.get` and `global.set`, which the interpreter carries out on the same bytes
and without a check: validation has made sure that the global is mutable and that the value has its
type.

`GlobalSlots` says what is meant: one typed value for each global, and no bytes. It is not
translated from the source. `Proofs.globals_shared` relates the two.
-/

set_option autoImplicit false

namespace Wamrx

open Support.Bytes

/-- One access. The module knows its globals by their numbers. -/
inductive GlobalAccess where
  | hostGet (name : List UInt8)
  | hostSet (name : List UInt8) (newVal : Val)
  | moduleGet (k : Nat)
  | moduleSet (k : Nat) (v : Val)
deriving DecidableEq, Repr

/-- What an access returns: a value, the result of `Global::set`, or the error of
`Instance::get_global`. -/
inductive GlobalAnswer where
  | value (v : Val)
  | result (r : Except Error Unit)
  | notFound (e : Error)
deriving DecidableEq, Repr

/-- The block of all globals, and the answers so far. -/
structure GlobalState where
  block : List UInt8
  answers : List GlobalAnswer
deriving DecidableEq, Repr

/-- The type and the place of a numeric global. -/
def GlobalInst.handle? (raw : GlobalInst) : Option Global :=
  (ValType.fromValkind raw.kind).map fun content =>
    ⟨content, if raw.isMutable then .mutable else .const, raw.data⟩

/-- The interpreter's store of a value, at its own width. -/
def Val.store (v : Val) (block : List UInt8) (off : Nat) : Option (List UInt8) :=
  match v with
  | .i32 v => store? 4 block off v
  | .i64 v => store? 8 block off v
  | .f32 v => store? 4 block off v
  | .f64 v => store? 8 block off v

namespace GlobalState

/-- Performs one access. -/
def step (exports : List GlobalExport) (globals : List GlobalInst) (s : GlobalState) :
    GlobalAccess → Option GlobalState
  | .hostGet name =>
    match getGlobal exports globals name with
    | .error e => some { s with answers := s.answers ++ [.notFound e] }
    | .ok g => (g.get s.block).map fun v => { s with answers := s.answers ++ [.value v] }
  | .hostSet name newVal =>
    match getGlobal exports globals name with
    | .error e => some { s with answers := s.answers ++ [.notFound e] }
    | .ok g => (g.set s.block newVal).map fun r => ⟨r.2, s.answers ++ [.result r.1]⟩
  | .moduleGet k =>
    (globals[k]?.bind GlobalInst.handle?).bind fun g =>
      (g.get s.block).map fun v => { s with answers := s.answers ++ [.value v] }
  | .moduleSet k v =>
    (globals[k]?.bind GlobalInst.handle?).bind fun g =>
      if g.mutability = .mutable ∧ v.ty = g.content then
        (v.store s.block g.data).map fun block => { s with block := block }
      -- A module with such a `global.set` is not valid.
      else none

end GlobalState

/-- A global: its type, and its value. -/
structure GlobalSlot where
  ty : GlobalType
  value : Val
deriving DecidableEq, Repr

/-- All globals of an instance, with `none` for one that is not numeric, and the answers so far. -/
structure GlobalSlots where
  slots : List (Option GlobalSlot)
  answers : List GlobalAnswer
deriving DecidableEq, Repr

namespace GlobalSlots

/-- The numeric global that is exported under the name. -/
def find (exports : List GlobalExport) (s : GlobalSlots) (name : List UInt8) :
    Except Error (Nat × GlobalSlot) :=
  if 0 ∈ name then .error (.globalNotFound name)
  else
    match (exportedGlobal exports name).bind fun k => s.slots[k]?.map fun slot => (k, slot) with
    | none => .error (.globalNotFound name)
    | some (_, none) => .error .unsupportedType
    | some (k, some slot) => .ok (k, slot)

/-- Performs one access. -/
def step (exports : List GlobalExport) (s : GlobalSlots) : GlobalAccess → Option GlobalSlots
  | .hostGet name =>
    match s.find exports name with
    | .error e => some { s with answers := s.answers ++ [.notFound e] }
    | .ok (_, slot) => some { s with answers := s.answers ++ [.value slot.value] }
  | .hostSet name newVal =>
    match s.find exports name with
    | .error e => some { s with answers := s.answers ++ [.notFound e] }
    | .ok (k, slot) =>
      if slot.ty.mutability = .const then
        some { s with answers := s.answers ++ [.result (.error .globalImmutable)] }
      else if newVal.ty ≠ slot.ty.content then
        some { s with answers := s.answers ++
          [.result (.error (.typeMismatch slot.ty.content newVal.ty))] }
      else
        some ⟨s.slots.set k (some ⟨slot.ty, newVal⟩), s.answers ++ [.result (.ok ())]⟩
  | .moduleGet k =>
    s.slots[k]?.join.map fun slot => { s with answers := s.answers ++ [.value slot.value] }
  | .moduleSet k v =>
    s.slots[k]?.join.bind fun slot =>
      if slot.ty.mutability = .mutable ∧ v.ty = slot.ty.content then
        some { s with slots := s.slots.set k (some ⟨slot.ty, v⟩) }
      else none

end GlobalSlots

end Wamrx
