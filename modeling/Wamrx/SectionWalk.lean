import Wamrx.ModuleBytes
import Wamrx.Support.Leb128

/-!
# `Wamrx.SectionWalk`: what the memory-type parser finds in arbitrary bytes

`WasmBinary` is the format that the parser should read. `SectionWalk` is the format that it does
read, again stated without a parser. The two differ in two places.

* A number is an encoding in at most five bytes of any value, of which only the low 32 bits count.
  `Overflows` says that some number of the walk does not fit.
* The limits of the memory are followed by arbitrary bytes. The section declares a size, and the
  declared payload lies in the buffer, but the limits may reach past it. `Overruns` says that they
  do.
-/

set_option autoImplicit false

namespace Wamrx

open Support (LebBytes)

/-- A section that is skipped by its size. -/
structure SkippedSection where
  id : UInt8
  id_ne : id ≠ 5
  size : LebBytes
  payload : List UInt8
  size_eq : size.word.toNat = payload.length

def SkippedSection.bytes (s : SkippedSection) : List UInt8 := s.id :: (s.size.bytes ++ s.payload)

/-- The count and the limits of the first memory. -/
structure LooseLimits where
  count : LebBytes
  flags : LebBytes
  minimum : LebBytes
  maximum : Option LebBytes
  count_ne : count.word ≠ 0
  maximum_iff : maximum.isSome = true ↔ flags.word &&& 0x01 ≠ 0

namespace LooseLimits

def bytes (l : LooseLimits) : List UInt8 :=
  l.count.bytes ++ (l.flags.bytes ++ (l.minimum.bytes ++ l.maximum.elim [] LebBytes.bytes))

def numbers (l : LooseLimits) : List LebBytes :=
  [l.count, l.flags, l.minimum] ++ l.maximum.toList

def memoryType (l : LooseLimits) : MemoryType :=
  ⟨l.minimum.word.toNat, l.maximum.map fun n => n.word.toNat⟩

end LooseLimits

/-- A buffer with a memory section: the sections before it, its size field, the limits that are
read behind it, and all bytes after those. -/
structure SectionWalk where
  version : List UInt8
  version_length : version.length = 4
  skipped : List SkippedSection
  size : LebBytes
  limits : LooseLimits
  rest : List UInt8
  size_le : size.word.toNat ≤ (limits.bytes ++ rest).length

namespace SectionWalk

/-- The memory section, and what follows it. -/
def memoryBytes (w : SectionWalk) : List UInt8 :=
  5 :: (w.size.bytes ++ (w.limits.bytes ++ w.rest))

def bytes (w : SectionWalk) : List UInt8 :=
  wasmMagic ++ (w.version ++ (w.skipped.flatMap SkippedSection.bytes ++ w.memoryBytes))

/-- Where the memory section starts. -/
def memoryOffset (w : SectionWalk) : Nat := 8 + (w.skipped.flatMap SkippedSection.bytes).length

/-- The numbers that are read on the way. -/
def numbers (w : SectionWalk) : List LebBytes :=
  w.skipped.map SkippedSection.size ++ w.size :: w.limits.numbers

/-- Some number does not fit 32 bits. -/
def Overflows (w : SectionWalk) : Prop := ∃ n ∈ w.numbers, 2 ^ 32 ≤ n.value

instance (w : SectionWalk) : Decidable w.Overflows := List.decidableBEx _ _

/-- The limits end behind the declared end of the section. -/
def Overruns (w : SectionWalk) : Prop := w.size.word.toNat < w.limits.bytes.length

instance (w : SectionWalk) : Decidable w.Overruns := Nat.decLt _ _

end SectionWalk

end Wamrx
