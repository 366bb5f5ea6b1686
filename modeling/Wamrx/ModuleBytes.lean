import Mathlib.Algebra.Group.Nat.Defs
import Wamrx.Value

/-!
# `Wamrx.ModuleBytes`: the memory-type parser of `module.rs`

`parse_memory_type` walks the sections of a Wasm binary up to the memory section, and
`read_leb_u32` reads every number on the way. Both are loops over a `usize` cursor.

A Rust function that returns an `Option` has three kinds of outcome: a value, `None` (often
through `?`), and a panic. `Parse` keeps them apart. An `index` and a `slice` out of bounds panic.
Each `+=` of the source is `addAssign`, which panics past the width of its type, and `checked_add`
is `checkedAdd`, which returns `None` there. `usizeBits` is the width of `usize`. It is at least
32, so `as usize` keeps every `u32`.

The loops run on fuel. `Panic.outOfFuel` is not a panic of the source: it marks a run that the
fuel cut short. `parse_memory_type` starts with one unit of fuel for each byte, and
`read_leb_u32` with five.
-/

set_option autoImplicit false

namespace Wamrx

/-- `isize::MAX`. No Rust slice is longer. -/
def isizeMax (usizeBits : Nat) : Nat := 2 ^ (usizeBits - 1) - 1

/-- The ways an evaluation stops without a result. -/
inductive Panic where
  | indexOutOfBounds
  | overflow
  | outOfFuel
deriving DecidableEq, Repr

/-- The outcome of a function that returns an `Option`. -/
inductive Parse (α : Type) where
  | some (a : α)
  | none
  | panic (p : Panic)
deriving DecidableEq, Repr

namespace Parse

/-- Sequencing: `None` and panics leave the function. -/
def bind {α β : Type} : Parse α → (α → Parse β) → Parse β
  | .some a, f => f a
  | .none, _ => .none
  | .panic p, _ => .panic p

instance : Monad Parse where
  pure := .some
  bind := bind

/-- The outcome of `Some`/`None` without a panic. -/
def ofOption {α : Type} : Option α → Parse α
  | Option.some a => .some a
  | Option.none => .none

@[simp] theorem pure_eq {α : Type} (a : α) : (pure a : Parse α) = .some a := rfl

@[simp] theorem some_bind {α β : Type} (a : α) (f : α → Parse β) :
    (Parse.some a >>= f) = f a := rfl

@[simp] theorem none_bind {α β : Type} (f : α → Parse β) :
    (Parse.none >>= f) = Parse.none := rfl

end Parse

/-- `a += b` on an unsigned type of `bits` bits. -/
def addAssign (bits a b : Nat) : Parse Nat :=
  if a + b < 2 ^ bits then .some (a + b) else .panic .overflow

/-- `a.checked_add(b)?` on an unsigned type of `bits` bits. -/
def checkedAdd (bits a b : Nat) : Parse Nat :=
  if a + b < 2 ^ bits then .some (a + b) else .none

/-- `buf[i]`. -/
def index (buf : List UInt8) (i : Nat) : Parse UInt8 :=
  match buf[i]? with
  | some b => .some b
  | none => .panic .indexOutOfBounds

/-- `&buf[lo..hi]`. -/
def slice (buf : List UInt8) (lo hi : Nat) : Parse (List UInt8) :=
  if lo ≤ hi ∧ hi ≤ buf.length then .some ((buf.take hi).drop lo) else .panic .indexOutOfBounds

/-- `*buf.get(i)?`. -/
def get (buf : List UInt8) (i : Nat) : Parse UInt8 := .ofOption buf[i]?

/-- `x.checked_shl(shift)?` on `u32`: it checks the shift amount, and the bits shifted past
the top are lost. -/
def checkedShl (x : UInt32) (shift : Nat) : Parse UInt32 :=
  if shift < 32 then .some (x <<< UInt32.ofNat shift) else .none

/-- The loop of `read_leb_u32`: the cursor, the bits read so far and the next shift. The
result is the number and the cursor after it. -/
def readLebLoop (usizeBits : Nat) (buf : List UInt8) :
    Nat → Nat → UInt32 → Nat → Parse (UInt32 × Nat)
  | 0, _, _, _ => .panic .outOfFuel
  | fuel + 1, pos, result, shift => do
    let byte ← get buf pos
    let pos ← addAssign usizeBits pos 1
    -- The fifth byte is shifted by 28: its upper bits are lost, with no check.
    let bits ← checkedShl (byte &&& 0x7f).toUInt32 shift
    let result := result ||| bits
    if byte &&& 0x80 = 0 then
      return (result, pos)
    let shift ← addAssign 32 shift 7
    if shift ≥ 32 then
      .none
    else
      readLebLoop usizeBits buf fuel pos result shift

/-- `read_leb_u32(buf, &mut pos)`. -/
def readLebU32 (usizeBits : Nat) (buf : List UInt8) (pos : Nat) : Parse (UInt32 × Nat) :=
  readLebLoop usizeBits buf 5 pos 0 0

/-- The body of the memory section from the cursor `mp`: the count, and the limits of the
first memory. The reads are bounded by the buffer and not by the section. -/
def readLimits (usizeBits : Nat) (bytes : List UInt8) (mp : Nat) : Parse MemoryType := do
  let (count, mp) ← readLebU32 usizeBits bytes mp
  if count = 0 then
    .none
  else
    -- Only bit 0 of the flags is looked at.
    let (flags, mp) ← readLebU32 usizeBits bytes mp
    let (minimum, mp) ← readLebU32 usizeBits bytes mp
    if flags &&& 0x01 ≠ 0 then
      let (maximum, _) ← readLebU32 usizeBits bytes mp
      return ⟨minimum.toNat, some maximum.toNat⟩
    else
      return ⟨minimum.toNat, none⟩

/-- The section loop of `parse_memory_type`, at the cursor `pos`. -/
def sectionLoop (usizeBits : Nat) (bytes : List UInt8) : Nat → Nat → Parse MemoryType
  | 0, pos => if pos < bytes.length then .panic .outOfFuel else .none
  | fuel + 1, pos =>
    if pos < bytes.length then do
      let id ← index bytes pos
      let pos ← addAssign usizeBits pos 1
      let (size, pos) ← readLebU32 usizeBits bytes pos
      let payloadEnd ← checkedAdd usizeBits pos size.toNat
      if payloadEnd > bytes.length then
        .none
      else if id = 5 then
        readLimits usizeBits bytes pos
      else
        -- Any other section is skipped by its size.
        sectionLoop usizeBits bytes fuel payloadEnd
    else
      .none

/-- The magic `\0asm`. -/
def wasmMagic : List UInt8 := [0x00, 0x61, 0x73, 0x6d]

/-- `parse_memory_type`. -/
def parseMemoryType (usizeBits : Nat) (bytes : List UInt8) : Parse MemoryType :=
  if bytes.length < 8 then
    .none
  else do
    -- The bytes are sliced only when there are enough of them.
    let magic ← slice bytes 0 4
    if magic ≠ wasmMagic then
      .none
    else
      sectionLoop usizeBits bytes bytes.length 8

end Wamrx
