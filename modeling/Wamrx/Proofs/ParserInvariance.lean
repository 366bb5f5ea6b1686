import Wamrx.Proofs.SectionWalks
import Mathlib.Algebra.Group.Nat.Defs

/-!
# `Wamrx.Proofs.ParserInvariance`: what the memory type of a module does not depend on

Tools rewrite modules without touching their memory. They add or strip custom sections, they sort
sections and pad sizes, or they put a signature behind the module. `walk_reframe` says what that
does to the walk of the parser: the memory section and its limits are the same ones.
`parser_frame` reads it off for the answers of the parser, `None` included.
-/

set_option autoImplicit false

namespace Wamrx.Proofs

open Support (LebU32)

/-- The sections in front of `rest`, behind the preamble. -/
def framed (version : List UInt8) (skipped : List SkippedSection) (rest : List UInt8) :
    List UInt8 :=
  wasmMagic ++ (version ++ (skipped.flatMap SkippedSection.bytes ++ rest))

/-- The parser finds a type exactly where there is a walk with these limits. -/
theorem parseMemoryType_eq_some_iff {usizeBits : Nat} {buf : List UInt8} {ty : MemoryType}
    (hsize : buf.length < 2 ^ usizeBits) :
    parseMemoryType usizeBits buf = .some ty ↔
      ∃ w : SectionWalk, w.bytes = buf ∧ w.limits.memoryType = ty := by
  constructor
  · intro h
    rcases parseMemoryType_cases hsize with hnone | ⟨w, rfl⟩
    · rw [hnone] at h
      cases h
    · rw [parseMemoryType_of_walk w hsize] at h
      exact ⟨w, rfl, Parse.some.inj h⟩
  · rintro ⟨w, rfl, rfl⟩
    exact parseMemoryType_of_walk w hsize

/-- There is no third answer. -/
theorem parseMemoryType_eq_of_iff {bits bits' : Nat} {buf buf' : List UInt8}
    (hsize : buf.length < 2 ^ bits) (hsize' : buf'.length < 2 ^ bits')
    (h : ∀ ty, parseMemoryType bits buf = .some ty ↔ parseMemoryType bits' buf' = .some ty) :
    parseMemoryType bits buf = parseMemoryType bits' buf' := by
  rcases parseMemoryType_cases hsize with hnone | ⟨w, rfl⟩
  · rcases parseMemoryType_cases hsize' with hnone' | ⟨w', rfl⟩
    · rw [hnone, hnone']
    · have hsome := (h _).mpr (parseMemoryType_of_walk w' hsize')
      rw [hnone] at hsome
      cases hsome
  · have hsome := parseMemoryType_of_walk w hsize
    rw [hsome, (h _).mp hsome]

/-- The walk with other sections in front of its memory section: nothing else of it changes. -/
theorem walk_reframe {version version' : List UInt8} {skipped : List SkippedSection}
    {rest : List UInt8} (skipped' : List SkippedSection) (hversion : version.length = 4)
    (hversion' : version'.length = 4) {w : SectionWalk}
    (h : w.bytes = framed version skipped rest) :
    ∃ w' : SectionWalk, w'.bytes = framed version' skipped' rest ∧ w'.limits = w.limits := by
  obtain ⟨v, hv, before, size, limits, behind, hle⟩ := w
  obtain ⟨rfl, htail⟩ := List.append_inj (List.append_cancel_left h) (hv.trans hversion.symm)
  -- The walk skips the sections of the frame, and then `more`, which are bytes of `rest`.
  obtain ⟨more, rfl, rfl⟩ := skipped_prefix htail.symm
  refine ⟨⟨version', hversion', skipped' ++ more, size, limits, behind, hle⟩, ?_, rfl⟩
  show wasmMagic ++ (version' ++ (_ ++ _)) = _
  rw [framed, List.flatMap_append, List.append_assoc]
  rfl

/-- The walk with more bytes behind it. -/
theorem walk_append (w : SectionWalk) (tail : List UInt8) :
    ∃ w' : SectionWalk, w'.bytes = w.bytes ++ tail ∧ w'.limits = w.limits := by
  have hle : w.size.word.toNat ≤ (w.limits.bytes ++ (w.rest ++ tail)).length := by
    have := w.size_le
    simp only [List.length_append] at this ⊢
    omega
  refine ⟨⟨w.version, w.version_length, w.skipped, w.size, w.limits, w.rest ++ tail, hle⟩, ?_, rfl⟩
  simp only [SectionWalk.bytes, SectionWalk.memoryBytes, List.append_assoc, List.cons_append]

/-- The answer of the parser does not depend on the version bytes, on the sections in front of the
memory section (their number, their order, and what is in them), on the width of `usize`, nor,
once there is a type, on anything behind the limits. Nothing is assumed about `rest`, so a module
without a memory section and a malformed one keep their `None` in the same way. -/
theorem parser_frame (bits bits' : Nat) (version version' : List UInt8)
    (skipped skipped' : List SkippedSection) (rest : List UInt8)
    (hversion : version.length = 4) (hversion' : version'.length = 4)
    (hsize : (framed version skipped rest).length < 2 ^ bits)
    (hsize' : (framed version' skipped' rest).length < 2 ^ bits') :
    parseMemoryType bits (framed version skipped rest)
        = parseMemoryType bits' (framed version' skipped' rest) ∧
      ∀ (ty : MemoryType) (tail : List UInt8),
        (framed version' skipped' rest ++ tail).length < 2 ^ bits' →
        parseMemoryType bits (framed version skipped rest) = .some ty →
        parseMemoryType bits' (framed version' skipped' rest ++ tail) = .some ty := by
  have hframe : parseMemoryType bits (framed version skipped rest)
      = parseMemoryType bits' (framed version' skipped' rest) := by
    refine parseMemoryType_eq_of_iff hsize hsize' fun ty => ?_
    rw [parseMemoryType_eq_some_iff hsize, parseMemoryType_eq_some_iff hsize']
    constructor
    · rintro ⟨w, hw, rfl⟩
      obtain ⟨w', hw', hlimits⟩ := walk_reframe skipped' hversion hversion' hw
      exact ⟨w', hw', congrArg LooseLimits.memoryType hlimits⟩
    · rintro ⟨w, hw, rfl⟩
      obtain ⟨w', hw', hlimits⟩ := walk_reframe skipped hversion' hversion hw
      exact ⟨w', hw', congrArg LooseLimits.memoryType hlimits⟩
  refine ⟨hframe, fun ty tail htail hsome => ?_⟩
  rw [hframe, parseMemoryType_eq_some_iff hsize'] at hsome
  obtain ⟨w, hw, rfl⟩ := hsome
  obtain ⟨w', hw', hlimits⟩ := walk_append w tail
  rw [hw] at hw'
  exact (parseMemoryType_eq_some_iff htail).mpr
    ⟨w', hw', congrArg LooseLimits.memoryType hlimits⟩

/-- A custom section is no memory section. -/
theorem custom_ne_memory : (0 : UInt8) ≠ 5 := by decide

/-- A custom section of one byte, which looks like the id of a memory section. -/
def customSection : SkippedSection :=
  ⟨0, custom_ne_memory, (LebU32.ofBits 1#7).toLebBytes, [5], by decide⟩

/-- `(memory 2)` behind two custom sections, and without them but with a signature behind it. -/
theorem parser_frame_stripped :
    parseMemoryType 64 (framed [1, 0, 0, 0] [customSection, customSection] [5, 3, 1, 0, 2])
        = parseMemoryType 32 (framed [1, 0, 0, 0] [] [5, 3, 1, 0, 2]) ∧
      parseMemoryType 32 (framed [1, 0, 0, 0] [] [5, 3, 1, 0, 2] ++ [0xFF])
        = .some ⟨2, none⟩ :=
  have h := parser_frame 64 32 [1, 0, 0, 0] [1, 0, 0, 0] [customSection, customSection] []
    [5, 3, 1, 0, 2] rfl rfl (by decide) (by decide)
  ⟨h.1, h.2 ⟨2, none⟩ [0xFF] (by decide) (by decide)⟩

end Wamrx.Proofs
