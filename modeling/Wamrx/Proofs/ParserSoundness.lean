import Wamrx.Proofs.MemoryTypeRoundTrip

/-!
# `Wamrx.Proofs.ParserSoundness`: which results of the parser are well-founded

The documentation promises `None` on any malformed input. So a type should only come out of a
buffer that encodes it: a well-formed module up to the end of its memory section, and any bytes
after that (`EndsWithMemory`).

`parseMemoryType_sound_iff`: this holds of a buffer exactly when it is not a walk that overflows or
overruns. Walks without these two defects are the well-formed prefixes (`module_of_walk` and
`walk_of_module`), and a buffer is one walk at most.
-/

set_option autoImplicit false

namespace Wamrx.Proofs

open Support (LebBytes LebU32)

/-! ### Well-formed up to the memory section -/

/-- The last section of the module is its only memory section, and its payload encodes the type:
a count of at least one, and then the limits. -/
def EndsWithMemory (m : WasmModule) (ty : MemoryType) : Prop :=
  ∃ before size vec hsize, m.sections = before ++ [.memory size vec hsize] ∧
    (∀ s ∈ before, s.id ≠ 5) ∧ vec.firstType? = some ty

/-- Skipped sections whose sizes fit 32 bits are sections. -/
theorem exists_sections (skipped : List SkippedSection)
    (hfit : ∀ s ∈ skipped, s.size.value < 2 ^ 32) :
    ∃ before : List WasmSection, (∀ s ∈ before, s.id ≠ 5) ∧
      before.flatMap WasmSection.bytes = skipped.flatMap SkippedSection.bytes := by
  induction skipped with
  | nil => exact ⟨[], by simp, rfl⟩
  | cons s skipped ih =>
    obtain ⟨hs, hskipped⟩ := List.forall_mem_cons.mp hfit
    obtain ⟨before, hid, hbytes⟩ := ih hskipped
    have hsize : s.size.value = s.payload.length :=
      (LebU32.toNat_word (s.size.toLebU32 hs)).symm.trans s.size_eq
    refine ⟨.other s.id s.id_ne (s.size.toLebU32 hs) s.payload hsize :: before, ?_, ?_⟩
    · exact List.forall_mem_cons.mpr ⟨s.id_ne, hid⟩
    · rw [List.flatMap_cons, List.flatMap_cons, hbytes]
      rfl

/-- Sections other than memory sections are skipped. -/
theorem exists_skipped (before : List WasmSection) (hid : ∀ s ∈ before, s.id ≠ 5) :
    ∃ skipped : List SkippedSection, (∀ s ∈ skipped, s.size.value < 2 ^ 32) ∧
      skipped.flatMap SkippedSection.bytes = before.flatMap WasmSection.bytes := by
  induction before with
  | nil => exact ⟨[], by simp, rfl⟩
  | cons s before ih =>
    obtain ⟨hs, hbefore⟩ := List.forall_mem_cons.mp hid
    obtain ⟨skipped, hfit, hbytes⟩ := ih hbefore
    cases s with
    | memory size vec hsize => exact absurd rfl hs
    | other id hne size payload hsize =>
      refine ⟨⟨id, hne, size.toLebBytes, payload, size.toNat_word.trans hsize⟩ :: skipped, ?_, ?_⟩
      · exact List.forall_mem_cons.mpr ⟨size.value_lt, hfit⟩
      · rw [List.flatMap_cons, List.flatMap_cons, hbytes]
        rfl

/-- Loose limits whose numbers fit 32 bits are a count and limits. -/
theorem exists_limits (l : LooseLimits) (hfit : ∀ n ∈ l.numbers, n.value < 2 ^ 32) :
    ∃ (count : LebU32) (first : Limits), 0 < count.value ∧
      count.bytes ++ first.bytes = l.bytes ∧ first.memoryType = l.memoryType := by
  obtain ⟨count, flags, minimum, maximum, hcount, hmax⟩ := l
  simp only [LooseLimits.numbers, List.cons_append, List.nil_append, List.forall_mem_cons] at hfit
  obtain ⟨hc, hf, hm, hx⟩ := hfit
  have hpos : 0 < count.value := by
    rw [ne_eq, LebBytes.word, ofNat_eq_zero hc] at hcount
    omega
  have hodd : maximum.isSome = true ↔ flags.value % 2 = 1 :=
    hmax.trans (and_0x01_ne_zero hf)
  cases maximum with
  | none =>
    refine ⟨count.toLebU32 hc, ⟨flags.toLebU32 hf, minimum.toLebU32 hm, none, hodd⟩, hpos, ?_, ?_⟩
    · rfl
    · have := LebU32.toNat_word (minimum.toLebU32 hm)
      simp only [Limits.memoryType, LooseLimits.memoryType, ← this]
      rfl
  | some n =>
    have hn : n.value < 2 ^ 32 := hx n (by simp)
    refine ⟨count.toLebU32 hc,
      ⟨flags.toLebU32 hf, minimum.toLebU32 hm, some (n.toLebU32 hn), hodd⟩, hpos, ?_, ?_⟩
    · rfl
    · have hmin := LebU32.toNat_word (minimum.toLebU32 hm)
      have hmaxi := LebU32.toNat_word (n.toLebU32 hn)
      simp only [Limits.memoryType, LooseLimits.memoryType, Option.map_some, ← hmin, ← hmaxi]
      rfl

/-- A walk without defects is a well-formed module up to the end of its memory section. -/
theorem module_of_walk (w : SectionWalk) (hfit : ¬ w.Overflows) (hin : ¬ w.Overruns) :
    ∃ (m : WasmModule) (rest : List UInt8), w.bytes = m.bytes ++ rest ∧
      EndsWithMemory m w.limits.memoryType := by
  have hfit : ∀ n ∈ w.numbers, n.value < 2 ^ 32 := fun n hn =>
    Nat.not_le.mp fun hle => hfit ⟨n, hn, hle⟩
  simp only [SectionWalk.numbers, List.forall_mem_append, List.forall_mem_cons,
    List.forall_mem_map] at hfit
  obtain ⟨hskipped, hsize, hlimits⟩ := hfit
  obtain ⟨before, hid, hbytes⟩ := exists_sections w.skipped hskipped
  obtain ⟨count, first, hpos, hl, hty⟩ := exists_limits w.limits hlimits
  -- The payload: the limits, and what is left of the declared size.
  let tail := w.rest.take (w.size.value - w.limits.bytes.length)
  let vec : MemoryVec := .cons count hpos first tail
  have hvec : vec.bytes = w.limits.bytes ++ tail := by
    show count.bytes ++ (first.bytes ++ tail) = _
    rw [← List.append_assoc, hl]
  have hword : w.size.word.toNat = w.size.value := LebU32.toNat_word (w.size.toLebU32 hsize)
  have hlen : w.size.value = vec.bytes.length := by
    have hle := w.size_le
    have hge := Nat.not_lt.mp hin
    rw [hword] at hle hge
    rw [hvec, List.length_append, List.length_take]
    rw [List.length_append] at hle
    omega
  refine ⟨⟨w.version, w.version_length, before ++ [.memory (w.size.toLebU32 hsize) vec hlen]⟩,
    w.rest.drop (w.size.value - w.limits.bytes.length), ?_,
    ⟨before, _, vec, hlen, rfl, hid, congrArg some hty⟩⟩
  have hrest : w.rest = tail ++ w.rest.drop (w.size.value - w.limits.bytes.length) :=
    (List.take_append_drop _ _).symm
  show wasmMagic ++ (w.version ++ (_ ++ 5 :: (w.size.bytes ++ (w.limits.bytes ++ w.rest)))) = _
  rw [← hbytes]
  conv_lhs => rw [hrest]
  simp only [WasmModule.bytes, wasmMagic, List.flatMap_append, List.flatMap_cons, List.flatMap_nil,
    WasmSection.bytes, hvec, List.append_assoc, List.cons_append, List.nil_append, List.append_nil]
  rfl

/-- A well-formed module up to the end of its memory section is a walk without defects, whatever
follows it. -/
theorem walk_of_module {m : WasmModule} {ty : MemoryType} (h : EndsWithMemory m ty)
    (rest : List UInt8) :
    ∃ w : SectionWalk, w.bytes = m.bytes ++ rest ∧ ¬ w.Overflows ∧ ¬ w.Overruns ∧
      w.limits.memoryType = ty := by
  obtain ⟨before, size, vec, hsize, hsections, hid, hty⟩ := h
  cases vec with
  | empty count hcount tail => cases hty
  | cons count hpos first tail =>
    cases hty
    obtain ⟨skipped, hskipped, hbytes⟩ := exists_skipped before hid
    obtain ⟨l, hlimits, hl, hty⟩ := exists_loose hpos first
    have hlen : size.value = (l.bytes ++ tail).length := by
      rw [hsize, hl, List.append_assoc]
      rfl
    refine ⟨⟨m.version, m.version_length, skipped, size.toLebBytes, l, tail ++ rest, ?_⟩,
      ?_, ?_, ?_, hty⟩
    · simp only [LebU32.toNat_word, hlen, List.length_append]
      omega
    · simp only [SectionWalk.bytes, SectionWalk.memoryBytes, WasmModule.bytes, wasmMagic, hbytes,
        hsections, hl, List.flatMap_append, List.flatMap_cons, List.flatMap_nil, WasmSection.bytes,
        MemoryVec.bytes, List.append_assoc, List.cons_append, List.nil_append, List.append_nil]
      rfl
    · rintro ⟨n, hn, hle⟩
      have hfit : ∀ n ∈ (skipped.map SkippedSection.size) ++ size.toLebBytes :: l.numbers,
          n.value < 2 ^ 32 := by
        simp only [List.forall_mem_append, List.forall_mem_cons, List.forall_mem_map]
        exact ⟨hskipped, size.value_lt, hlimits⟩
      exact absurd hle (Nat.not_le.mpr (hfit n hn))
    · show ¬ size.toLebBytes.word.toNat < l.bytes.length
      rw [LebU32.toNat_word, hlen, List.length_append]
      omega

/-! ### Soundness -/

/-- A walk with a defect yields a type that the buffer does not encode. -/
theorem not_encoded_of_defect (w : SectionWalk) (h : w.Overflows ∨ w.Overruns)
    (ty : MemoryType) : ¬ ∃ (m : WasmModule) (rest : List UInt8),
      w.bytes = m.bytes ++ rest ∧ EndsWithMemory m ty := by
  rintro ⟨m, rest, hbytes, hends⟩
  obtain ⟨w', hbytes', hfit, hin, -⟩ := walk_of_module hends rest
  obtain rfl : w = w' := walk_injective (hbytes.trans hbytes'.symm)
  exact h.elim hfit hin

/-- For every buffer: what the parser returns is encoded in the buffer, without the bytes behind
the payload of the memory section, exactly when the buffer is not a walk in which a number up to
the limits overflows 32 bits or the limits overrun the declared payload. -/
theorem parseMemoryType_sound_iff (usizeBits : Nat) (bs : List UInt8)
    (hsize : bs.length ≤ isizeMax usizeBits) :
    (∀ ty, parseMemoryType usizeBits bs = .some ty →
      ∃ (m : WasmModule) (rest : List UInt8), bs = m.bytes ++ rest ∧ EndsWithMemory m ty ∧
        ∀ rest' : List UInt8, (m.bytes ++ rest').length ≤ isizeMax usizeBits →
          parseMemoryType usizeBits (m.bytes ++ rest') = .some ty) ↔
      ¬ ∃ w : SectionWalk, w.bytes = bs ∧ (w.Overflows ∨ w.Overruns) := by
  constructor
  · rintro hsound ⟨w, rfl, hdefect⟩
    have hparse := parseMemoryType_of_walk w (lt_two_pow_of_le_isizeMax hsize)
    obtain ⟨m, rest, hbytes, hends, -⟩ := hsound _ hparse
    exact not_encoded_of_defect w hdefect _ ⟨m, rest, hbytes, hends⟩
  · intro hclean ty hparse
    rcases parseMemoryType_cases (lt_two_pow_of_le_isizeMax hsize) with hnone | ⟨w, rfl⟩
    · rw [hnone] at hparse
      cases hparse
    rw [parseMemoryType_of_walk w (lt_two_pow_of_le_isizeMax hsize)] at hparse
    cases hparse
    obtain ⟨m, rest, hbytes, hends⟩ := module_of_walk w
      (fun hover => hclean ⟨w, rfl, Or.inl hover⟩) (fun hover => hclean ⟨w, rfl, Or.inr hover⟩)
    refine ⟨m, rest, hbytes, hends, fun rest' hrest' => ?_⟩
    -- Other bytes behind the payload make another walk, with the same limits.
    obtain ⟨w', hbytes', -, -, hty⟩ := walk_of_module hends rest'
    rw [← hbytes'] at hrest' ⊢
    rw [parseMemoryType_of_walk w' (lt_two_pow_of_le_isizeMax hrest'), hty]

/-- `paddedModule` with one byte behind it. -/
theorem parseMemoryType_sound_paddedModule : ∃ (m : WasmModule) (rest : List UInt8),
    paddedModule.bytes ++ [5] = m.bytes ++ rest ∧ EndsWithMemory m ⟨2, some 300⟩ := by
  have hends : EndsWithMemory paddedModule ⟨2, some 300⟩ :=
    ⟨[_], _, _, _, rfl, by simp [WasmSection.id], rfl⟩
  obtain ⟨w, hbytes, hfit, hin, hty⟩ := walk_of_module hends [5]
  have hclean : ¬ ∃ w : SectionWalk, w.bytes = paddedModule.bytes ++ [5] ∧
      (w.Overflows ∨ w.Overruns) := by
    rintro ⟨w', hbytes', hdefect⟩
    obtain rfl : w' = w := walk_injective (hbytes'.trans hbytes.symm)
    exact hdefect.elim hfit hin
  have hlen : (paddedModule.bytes ++ [5]).length ≤ isizeMax 64 := by decide
  have hparse : parseMemoryType 64 (paddedModule.bytes ++ [5]) = .some ⟨2, some 300⟩ := by
    rw [← hbytes] at hlen ⊢
    rw [parseMemoryType_of_walk w (lt_two_pow_of_le_isizeMax hlen), hty]
  obtain ⟨m, rest, hm, hm', -⟩ :=
    (parseMemoryType_sound_iff 64 (paddedModule.bytes ++ [5]) hlen).mpr hclean _ hparse
  exact ⟨m, rest, hm, hm'⟩

/-- A memory section of one byte, a count of 1, and two more bytes behind it. -/
def overrunningWalk : SectionWalk where
  version := wasmVersion
  version_length := length_wasmVersion
  skipped := []
  size := (LebU32.ofBits 1#7).toLebBytes
  limits :=
    { count := (LebU32.ofBits 1#7).toLebBytes
      flags := (LebU32.ofBits 0#7).toLebBytes
      minimum := (LebU32.ofBits 2#7).toLebBytes
      maximum := none
      count_ne := by decide
      maximum_iff := by decide }
  rest := []
  size_le := by decide

/-- A memory section whose minimum is a five-byte encoding of `2 ^ 32 + 2`. -/
def overflowingWalk : SectionWalk where
  version := wasmVersion
  version_length := length_wasmVersion
  skipped := []
  size := (LebU32.ofBits 7#7).toLebBytes
  limits :=
    { count := (LebU32.ofBits 1#7).toLebBytes
      flags := (LebU32.ofBits 0#7).toLebBytes
      minimum := ⟨[0x82, 0x80, 0x80, 0x80, 0x10], _, .more 0x82 _ _ (by decide)
        (.more 0x80 _ _ (by decide) (.more 0x80 _ _ (by decide) (.more 0x80 _ _ (by decide)
          (.last 0x10 (by decide))))), by decide⟩
      maximum := none
      count_ne := by decide
      maximum_iff := by decide }
  rest := []
  size_le := by decide

/-- The two defects. The limits of the first buffer lie behind its memory section, and the second
buffer encodes a minimum of `2 ^ 32 + 2` pages. Both are accepted with a minimum of two pages. -/
theorem parseMemoryType_unsound :
    parseMemoryType 64 [0, 0x61, 0x73, 0x6d, 1, 0, 0, 0, 5, 1, 1, 0, 2] = .some ⟨2, none⟩ ∧
    (¬ ∃ (m : WasmModule) (rest : List UInt8),
      [0, 0x61, 0x73, 0x6d, 1, 0, 0, 0, 5, 1, 1, 0, 2] = m.bytes ++ rest ∧
        EndsWithMemory m ⟨2, none⟩) ∧
    parseMemoryType 64 [0, 0x61, 0x73, 0x6d, 1, 0, 0, 0, 5, 7, 1, 0, 0x82, 0x80, 0x80, 0x80, 0x10]
      = .some ⟨2, none⟩ ∧
    ¬ ∃ (m : WasmModule) (rest : List UInt8),
      [0, 0x61, 0x73, 0x6d, 1, 0, 0, 0, 5, 7, 1, 0, 0x82, 0x80, 0x80, 0x80, 0x10]
        = m.bytes ++ rest ∧ EndsWithMemory m ⟨2, none⟩ := by
  refine ⟨by decide, ?_, by decide, ?_⟩
  · exact not_encoded_of_defect overrunningWalk (Or.inr (by decide)) _
  · exact not_encoded_of_defect overflowingWalk
      (Or.inl ⟨overflowingWalk.limits.minimum, by simp [SectionWalk.numbers, LooseLimits.numbers],
        by decide⟩) _

end Wamrx.Proofs
