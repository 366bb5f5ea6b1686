import Wamrx.ModuleBytes
import Wamrx.Support.Loop

/-!
# `Wamrx.ParserSteps`: the loops of the memory-type parser, one iteration at a time

`lebBody` is the body of the loop of `read_leb_u32`, and `sectionBody` that of the `while` loop of
`parse_memory_type`, each with its condition. `readLebLoop` and `sectionLoop` of `ModuleBytes`
unroll them.
-/

set_option autoImplicit false

namespace Wamrx

open Support

/-- `None`, a panic and a `return` leave the loop. -/
def Parse.toLoopStep {σ ρ : Type} : Parse (LoopStep σ ρ) → LoopStep σ (Parse ρ)
  | .some (.done r) => .done (.some r)
  | .some (.next s) => .next s
  | .none => .done .none
  | .panic p => .done (.panic p)

/-- The variables of the loop of `read_leb_u32`. -/
structure LebState where
  pos : Nat
  result : UInt32
  shift : Nat

/-- One iteration of the loop of `read_leb_u32`. -/
def lebBody (usizeBits : Nat) (buf : List UInt8) (s : LebState) :
    LoopStep LebState (Parse (UInt32 × Nat)) :=
  Parse.toLoopStep do
    let byte ← get buf s.pos
    let pos ← addAssign usizeBits s.pos 1
    let bits ← checkedShl (byte &&& 0x7f).toUInt32 s.shift
    let result := s.result ||| bits
    if byte &&& 0x80 = 0 then
      return .done (result, pos)
    let shift ← addAssign 32 s.shift 7
    if shift ≥ 32 then
      .none
    else
      return .next ⟨pos, result, shift⟩

/-- One iteration of the section loop at the cursor `pos`. -/
def sectionBody (usizeBits : Nat) (bytes : List UInt8) (pos : Nat) :
    LoopStep Nat (Parse MemoryType) :=
  if pos < bytes.length then
    Parse.toLoopStep do
      let id ← index bytes pos
      let pos ← addAssign usizeBits pos 1
      let (size, pos) ← readLebU32 usizeBits bytes pos
      let payloadEnd ← checkedAdd usizeBits pos size.toNat
      if payloadEnd > bytes.length then
        .none
      else if id = 5 then do
        let ty ← readLimits usizeBits bytes pos
        return .done ty
      else
        return .next payloadEnd
  else
    .done .none

end Wamrx
