import Wamrx.Error
import Wamrx.Support.Bytes

/-!
# `Wamrx.Global`: exported globals

`Global` of `global.rs` and `Instance::get_global` of `instance.rs`. WAMR keeps the values of all
globals of an instance in one block of bytes. A handle has the type of its global and a pointer
into that block, here an offset. The pointer need not be aligned for the type, so the source
reads and writes unaligned.

`none` marks an access outside the block.
-/

set_option autoImplicit false

namespace Wamrx

open Support.Bytes

/-- `Global`. -/
structure Global where
  content : ValType
  mutability : Mutability
  data : Nat
deriving DecidableEq, Repr

namespace Global

/-- `Global::ty`. -/
def ty (g : Global) : GlobalType := ⟨g.content, g.mutability⟩

/-- `Global::get`. -/
def get (g : Global) (block : List UInt8) : Option Val :=
  match g.content with
  | .i32 => (load? 4 block g.data).map .i32
  | .i64 => (load? 8 block g.data).map .i64
  | .f32 => (load? 4 block g.data).map .f32
  | .f64 => (load? 8 block g.data).map .f64

/-- `Global::set`: the result, and the block after it. -/
def set (g : Global) (block : List UInt8) (newVal : Val) :
    Option (Except Error Unit × List UInt8) :=
  if g.mutability = .const then
    some (.error .globalImmutable, block)
  else if newVal.ty ≠ g.content then
    some (.error (.typeMismatch g.content newVal.ty), block)
  else
    -- The width is that of the new value, which the check has made that of the content.
    let stored := match newVal with
      | .i32 v => store? 4 block g.data v
      | .i64 v => store? 8 block g.data v
      | .f32 v => store? 4 block g.data v
      | .f64 v => store? 8 block g.data v
    stored.map fun block => (.ok (), block)

end Global

/-! ### Finding a global -/

/-- `wasm_global_inst_t`: what WAMR reports for a global. -/
structure GlobalInst where
  kind : ValKind
  isMutable : Bool
  data : Nat
deriving DecidableEq, Repr

/-- An export of a global: its name, and the number of the global in the instance. -/
structure GlobalExport where
  name : Name
  global : Nat
deriving DecidableEq, Repr

/-- The number of the global that is exported under the name. -/
def exportedGlobal (exports : List GlobalExport) (name : Name) : Option Nat :=
  (exports.find? fun e => e.name = name).map GlobalExport.global

/-- `Instance::get_global`. -/
def getGlobal (exports : List GlobalExport) (globals : List GlobalInst) (name : List UInt8) :
    Except Error Global :=
  -- `CString::new` refuses a name with a NUL in it.
  if 0 ∈ name then .error (.globalNotFound name)
  else
    match (exportedGlobal exports name).bind (globals[·]?) with
    | none => .error (.globalNotFound name)
    | some raw =>
      match ValType.fromValkind raw.kind with
      | none => .error .unsupportedType
      | some content => .ok ⟨content, if raw.isMutable then .mutable else .const, raw.data⟩

/-! ### Globals under a sequence of calls -/

/-- One call on a handle. -/
inductive GlobalAction where
  | get
  | set (newVal : Val)
deriving DecidableEq, Repr

/-- A call on a handle that was found under the name. Several names may lead to one global. -/
structure GlobalOp where
  name : List UInt8
  handle : Global
  action : GlobalAction
deriving DecidableEq, Repr

/-- What a call leaves in the block. -/
def globalStep (block : List UInt8) (op : GlobalOp) : Option (List UInt8) :=
  match op.action with
  | .get => (op.handle.get block).map fun _ => block
  | .set newVal => (op.handle.set block newVal).map Prod.snd

/-- The bytes that a value of the type takes. -/
def ValType.width : ValType → Nat
  | .i32 | .f32 => 4
  | .i64 | .f64 => 8

/-- The bytes that a global takes. -/
def GlobalInst.width (raw : GlobalInst) : Nat :=
  (ValType.fromValkind raw.kind).elim 0 ValType.width

/-- How WAMR lays out globals of numeric types in a block of this size: in ranges that do not
overlap. -/
structure GlobalLayout (globals : List GlobalInst) (size : Nat) : Prop where
  inBlock : ∀ raw ∈ globals, raw.data + raw.width ≤ size
  disjoint : globals.Pairwise fun a b => a.data + a.width ≤ b.data ∨ b.data + b.width ≤ a.data

end Wamrx
