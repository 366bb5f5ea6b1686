import Wamrx.Proofs.ParserPanics
import Wamrx.Proofs.SectionWalks
import Wamrx.WasmBinary

/-!
# `Wamrx.Proofs.MemoryTypeRoundTrip`: the parser recovers the declared memory type

`parseMemoryType_bytes`: on the bytes of every well-formed module, `parseMemoryType` returns
the type of the first memory of the first memory section, and `None` when there is none. The
limits of a well-formed module are loose limits (`exists_loose`), which gives `readLimits_of_vec`
for the payload of a memory section. `sectionLoop_append` is by induction on the sections behind
the cursor, with any bytes after them.
-/

set_option autoImplicit false

namespace Wamrx.Proofs

open Support (LebBytes LebU32)

/-- The bit test on the flags word, as arithmetic. -/
theorem and_0x01_ne_zero {n : Nat} (h : n < 2 ^ 32) :
    (UInt32.ofNat n &&& 0x01 ≠ 0) ↔ n % 2 = 1 := by
  rw [ne_eq, ← UInt32.toNat_inj, UInt32.toNat_and, UInt32.toNat_ofNat_of_lt' h]
  show ¬ (n &&& 1 = 0) ↔ n % 2 = 1
  rw [Nat.and_one_is_mod]
  omega

/-- A 32-bit word of a number is zero exactly when the number is. -/
theorem ofNat_eq_zero {n : Nat} (h : n < 2 ^ 32) : UInt32.ofNat n = 0 ↔ n = 0 := by
  rw [← UInt32.toNat_inj, UInt32.toNat_ofNat_of_lt' h]
  rfl

/-- A count and limits are loose limits. -/
theorem exists_loose {count : LebU32} (hcount : 0 < count.value) (first : Limits) :
    ∃ l : LooseLimits, (∀ n ∈ l.numbers, n.value < 2 ^ 32) ∧
      l.bytes = count.bytes ++ first.bytes ∧ l.memoryType = first.memoryType := by
  obtain ⟨flags, minimum, maximum, hmax⟩ := first
  have hne : count.toLebBytes.word ≠ 0 := by
    intro hzero
    have := (ofNat_eq_zero count.value_lt).mp hzero
    omega
  have hbit : maximum.isSome = true ↔ flags.toLebBytes.word &&& 0x01 ≠ 0 :=
    hmax.trans (and_0x01_ne_zero flags.value_lt).symm
  refine ⟨⟨count.toLebBytes, flags.toLebBytes, minimum.toLebBytes,
    maximum.map LebU32.toLebBytes, hne, by rwa [Option.isSome_map]⟩, ?_, ?_, ?_⟩
  · simp only [LooseLimits.numbers, List.cons_append, List.nil_append, List.forall_mem_cons]
    refine ⟨count.value_lt, flags.value_lt, minimum.value_lt, ?_⟩
    cases maximum with
    | none => simp
    | some n =>
      intro k hk
      obtain rfl : k = n.toLebBytes := List.mem_singleton.mp hk
      exact n.value_lt
  · cases maximum <;> rfl
  · simp only [LooseLimits.memoryType, Limits.memoryType, LebU32.toNat_word, Option.map_map]
    congr 1
    cases maximum with
    | none => rfl
    | some n => exact congrArg some n.toNat_word

/-- The payload of a memory section. -/
theorem readLimits_of_vec {usizeBits : Nat} {buf rest : List UInt8} {mp : Nat}
    (hsize : buf.length < 2 ^ usizeBits) (vec : MemoryVec)
    (h : buf.drop mp = vec.bytes ++ rest) :
    readLimits usizeBits buf mp = .ofOption vec.firstType? := by
  cases vec with
  | empty count hcount tail =>
    have hc := @readLebU32_of_encoded _ _ (tail ++ rest) hsize count _
      (by simpa [MemoryVec.bytes] using h)
    simp [readLimits, hc, hcount, MemoryVec.firstType?, Parse.ofOption]
  | cons count hcount first tail =>
    obtain ⟨l, -, hl, hty⟩ := exists_loose hcount first
    simp only [MemoryVec.bytes, List.append_assoc] at h
    rw [← List.append_assoc, ← hl] at h
    rw [readLimits_of_loose hsize l h, hty]
    rfl

/-- Sections other than memory sections declare no memory. -/
theorem declaredMemory_eq_none {sections : List WasmSection} (h : ∀ s ∈ sections, s.id ≠ 5) :
    WasmSection.declaredMemory sections = none := by
  induction sections with
  | nil => rfl
  | cons s rest ih =>
    obtain ⟨hs, hrest⟩ := List.forall_mem_cons.mp h
    cases s with
    | memory size vec hlen => exact absurd rfl hs
    | other id hid size payload hlen => exact ih hrest

/-- The section loop at the start of a list of sections, whatever follows them: the first memory
section ends it, and without one it arrives behind the sections. -/
theorem sectionLoop_append {usizeBits : Nat} {buf : List UInt8}
    (hsize : buf.length < 2 ^ usizeBits) (sections : List WasmSection) (tail : List UInt8) :
    ∀ fuel pos : Nat, buf.drop pos = sections.flatMap WasmSection.bytes ++ tail →
      buf.length ≤ pos + fuel →
      ((∃ s ∈ sections, s.id = 5) ∧
        sectionLoop usizeBits buf fuel pos = .ofOption (WasmSection.declaredMemory sections)) ∨
      ((∀ s ∈ sections, s.id ≠ 5) ∧ ∃ fuel' pos', buf.drop pos' = tail ∧
        sectionLoop usizeBits buf fuel pos = sectionLoop usizeBits buf fuel' pos') := by
  induction sections with
  | nil =>
    intro fuel pos h _
    exact Or.inr ⟨by simp, fuel, pos, h, rfl⟩
  | cons s rest ih =>
    intro fuel pos h hfuel
    rw [List.flatMap_cons, List.append_assoc] at h
    have hpos : pos < buf.length := by
      have := congrArg List.length h
      cases s <;> simp [WasmSection.bytes] at this <;> omega
    obtain ⟨fuel, rfl⟩ : ∃ f, fuel = f + 1 := ⟨fuel - 1, by omega⟩
    cases s with
    | memory size vec hlen =>
      refine Or.inl ⟨⟨_, List.mem_cons_self, rfl⟩, ?_⟩
      simp only [WasmSection.bytes, List.cons_append, List.append_assoc] at h
      rw [sectionLoop_succ hsize size.toLebBytes (size.toNat_word.trans hlen) h, if_pos rfl]
      have h1 := drop_succ_of_drop h
      exact readLimits_of_vec hsize vec (drop_of_drop_append h1)
    | other id hid size payload hlen =>
      simp only [WasmSection.bytes, List.cons_append, List.append_assoc] at h
      rw [sectionLoop_succ hsize size.toLebBytes (size.toNat_word.trans hlen) h, if_neg hid]
      have h1 := drop_succ_of_drop h
      have h2 := drop_of_drop_append (drop_of_drop_append h1)
      rcases ih fuel _ h2 (by omega) with ⟨⟨s, hs, hid'⟩, hloop⟩ | ⟨hids, hloop⟩
      · exact Or.inl ⟨⟨s, List.mem_cons_of_mem _ hs, hid'⟩, hloop⟩
      · exact Or.inr ⟨List.forall_mem_cons.mpr ⟨hid, hids⟩, hloop⟩

/-- The section loop at a list of sections that ends with the buffer. -/
theorem sectionLoop_of_sections {usizeBits : Nat} {buf : List UInt8}
    (hsize : buf.length < 2 ^ usizeBits) (sections : List WasmSection) {fuel pos : Nat}
    (h : buf.drop pos = sections.flatMap WasmSection.bytes) (hfuel : buf.length ≤ pos + fuel) :
    sectionLoop usizeBits buf fuel pos = .ofOption (WasmSection.declaredMemory sections) := by
  rw [← List.append_nil (sections.flatMap WasmSection.bytes)] at h
  rcases sectionLoop_append hsize sections [] fuel pos h hfuel with
    ⟨-, hloop⟩ | ⟨hids, fuel', pos', hend, hloop⟩
  · exact hloop
  · have hend : ¬ pos' < buf.length := by
      have := congrArg List.length hend
      simp at this
      omega
    rw [hloop, declaredMemory_eq_none hids]
    cases fuel' <;> simp [sectionLoop, hend, Parse.ofOption]

/-- The parser on a well-formed module whose length fits `usize`. -/
theorem parseMemoryType_of_length_lt {usizeBits : Nat} (m : WasmModule)
    (hlt : m.bytes.length < 2 ^ usizeBits) :
    parseMemoryType usizeBits m.bytes = .ofOption m.declaredMemory := by
  obtain ⟨hparse, hdrop⟩ :=
    @parseMemoryType_of_preamble usizeBits m.bytes m.version _ m.version_length rfl
  rw [hparse]
  exact sectionLoop_of_sections hlt m.sections hdrop (by omega)

/-- A memory section of a well-formed module ends the parser, so bytes behind the module make no
difference. -/
theorem parseMemoryType_append {usizeBits : Nat} (m : WasmModule) (tail : List UInt8)
    (hlt : (m.bytes ++ tail).length < 2 ^ usizeBits) (hmem : ∃ s ∈ m.sections, s.id = 5) :
    parseMemoryType usizeBits (m.bytes ++ tail) = .ofOption m.declaredMemory := by
  obtain ⟨hparse, hdrop⟩ := @parseMemoryType_of_preamble usizeBits (m.bytes ++ tail) m.version
    (m.sections.flatMap WasmSection.bytes ++ tail) m.version_length
    (by simp [WasmModule.bytes, wasmMagic])
  rw [hparse]
  rcases sectionLoop_append hlt m.sections tail (m.bytes ++ tail).length 8 hdrop (by omega) with
    ⟨-, hloop⟩ | ⟨hids, -⟩
  · exact hloop
  · obtain ⟨s, hs, hid⟩ := hmem
    exact absurd hid (hids s hs)

/-- The parser recovers the declared limits of every well-formed module: the memory type of
the first memory of the first memory section, and `None` when there is no such memory. -/
theorem parseMemoryType_bytes (usizeBits : Nat) (m : WasmModule)
    (hsize : m.bytes.length ≤ isizeMax usizeBits) :
    parseMemoryType usizeBits m.bytes = .ofOption m.declaredMemory :=
  parseMemoryType_of_length_lt m (lt_two_pow_of_le_isizeMax hsize)

/-- A custom section whose payload looks like a memory section, and then a memory section with
padded numbers, `(memory 2 300)` under the flags `0x03`. -/
def paddedModule : WasmModule where
  version := [1, 0, 0, 0]
  version_length := rfl
  sections :=
    [ .other 0 (by decide) ⟨[0x84, 0x00], 4, .more 0x84 _ 0 (by decide) (.last 0 (by decide)),
        by decide, by decide⟩ [5, 2, 1, 0] rfl,
      .memory ⟨[8], 8, .last 8 (by decide), by decide, by decide⟩
        (.cons ⟨[0x81, 0x00], 1, .more 0x81 _ 0 (by decide) (.last 0 (by decide)), by decide,
            by decide⟩ (by decide)
          { flags := ⟨[3], 3, .last 3 (by decide), by decide, by decide⟩
            minimum := ⟨[0x82, 0x80, 0x00], 2, .more 0x82 _ 0 (by decide)
              (.more 0x80 _ 0 (by decide) (.last 0 (by decide))), by decide, by decide⟩
            maximum := some ⟨[0xac, 0x02], 300, .more 0xac _ 2 (by decide)
              (.last 2 (by decide)), by decide, by decide⟩
            maximum_iff := by decide }
          [])
        rfl ]

theorem parseMemoryType_paddedModule :
    parseMemoryType 64 paddedModule.bytes = .some ⟨2, some 300⟩ :=
  parseMemoryType_bytes 64 paddedModule (by decide)

end Wamrx.Proofs
