import Wamrx.Proofs.ReadLeb
import Wamrx.SectionWalk

/-!
# `Wamrx.Proofs.SectionWalks`: the parser finds exactly the section walks

On a buffer that is the bytes of a `SectionWalk`, `parseMemoryType` returns the limits of the walk
(`parseMemoryType_of_walk`), and on every other buffer it returns `None`
(`parseMemoryType_cases`). A buffer is the bytes of one walk at most (`walk_injective`).

The first two follow the parser inwards: the loop over the sections, then the limits. The third is
the prefix-freeness of the encodings, carried along the sections.
-/

set_option autoImplicit false

namespace Wamrx.Proofs

open Support (LebBytes)

variable {usizeBits : Nat} {buf : List UInt8}

/-! ### The limits -/

/-- The reader of the limits at loose limits. -/
theorem readLimits_of_loose (hsize : buf.length < 2 ^ usizeBits) (l : LooseLimits) {mp : Nat}
    {rest : List UInt8} (h : buf.drop mp = l.bytes ++ rest) :
    readLimits usizeBits buf mp = .some l.memoryType := by
  simp only [LooseLimits.bytes, List.append_assoc] at h
  have hc := readLebU32_of_bytes hsize l.count h
  have h := drop_of_drop_append h
  have hf := readLebU32_of_bytes hsize l.flags h
  have h := drop_of_drop_append h
  have hm := readLebU32_of_bytes hsize l.minimum h
  have h := drop_of_drop_append h
  simp only [readLimits, hc, hf, hm, Parse.some_bind, if_neg l.count_ne]
  cases hmax : l.maximum with
  | none =>
    have hbit : ¬ (l.flags.word &&& 0x01 ≠ 0) := fun hbit => by
      have := l.maximum_iff.mpr hbit
      simp [hmax] at this
    rw [if_neg hbit]
    simp [LooseLimits.memoryType, hmax]
  | some maximum =>
    have hbit := l.maximum_iff.mp (by simp [hmax])
    rw [hmax] at h
    have hx := readLebU32_of_bytes hsize maximum h
    rw [if_pos hbit]
    simp only [hx, Parse.some_bind]
    simp [LooseLimits.memoryType, hmax]

/-- The reader of the limits returns `None`, or finds limits at the cursor. -/
theorem readLimits_cases (hsize : buf.length < 2 ^ usizeBits) (mp : Nat) :
    readLimits usizeBits buf mp = .none ∨
    ∃ (l : LooseLimits) (rest : List UInt8), buf.drop mp = l.bytes ++ rest := by
  unfold readLimits
  rcases readLebU32_cases hsize mp with h | ⟨count, rest, hdrop, h⟩
  · exact Or.inl (by simp [h])
  simp only [h, Parse.some_bind]
  by_cases hcount : count.word = 0
  · exact Or.inl (by simp [hcount])
  rw [if_neg hcount]
  have hrest := drop_of_drop_append hdrop
  rcases readLebU32_cases hsize (mp + count.bytes.length) with h | ⟨flags, rest₁, hdrop₁, h⟩
  · exact Or.inl (by simp [h])
  simp only [h, Parse.some_bind]
  have hrest₁ := drop_of_drop_append hdrop₁
  rcases readLebU32_cases hsize (mp + count.bytes.length + flags.bytes.length) with
    h | ⟨minimum, rest₂, hdrop₂, h⟩
  · exact Or.inl (by simp [h])
  simp only [h, Parse.some_bind]
  have hrest₂ := drop_of_drop_append hdrop₂
  rw [hrest] at hdrop₁
  rw [hrest₁] at hdrop₂
  by_cases hbit : flags.word &&& 0x01 ≠ 0
  · rw [if_pos hbit]
    rcases readLebU32_cases hsize
        (mp + count.bytes.length + flags.bytes.length + minimum.bytes.length) with
      h | ⟨maximum, rest₃, hdrop₃, h⟩
    · exact Or.inl (by simp [h])
    rw [hrest₂] at hdrop₃
    refine Or.inr ⟨⟨count, flags, minimum, some maximum, hcount, by simp [hbit]⟩, rest₃, ?_⟩
    rw [hdrop, hdrop₁, hdrop₂, hdrop₃]
    simp [LooseLimits.bytes]
  · refine Or.inr ⟨⟨count, flags, minimum, none, hcount, by simp [hbit]⟩, rest₂, ?_⟩
    rw [hdrop, hdrop₁, hdrop₂]
    simp [LooseLimits.bytes]

/-! ### The sections -/

/-- One iteration of the section loop at a section whose header lies at the cursor: the cursor
moves to the payload, and then past it unless this is the memory section. -/
theorem sectionLoop_succ {payload rest : List UInt8} {fuel pos : Nat}
    (hsize : buf.length < 2 ^ usizeBits) {id : UInt8} (size : LebBytes)
    (hlen : size.word.toNat = payload.length)
    (h : buf.drop pos = id :: (size.bytes ++ (payload ++ rest))) :
    sectionLoop usizeBits buf (fuel + 1) pos =
      if id = 5 then readLimits usizeBits buf (pos + 1 + size.bytes.length)
      else sectionLoop usizeBits buf fuel
        (pos + 1 + size.bytes.length + payload.length) := by
  have hid := getElem?_of_drop h
  have hpos : pos < buf.length := (List.getElem?_eq_some_iff.mp hid).1
  have h1 : buf.drop (pos + 1) = size.bytes ++ (payload ++ rest) :=
    drop_succ_of_drop h
  have hread := readLebU32_of_bytes hsize size h1
  have h2 := drop_of_drop_append h1
  -- The section lies in the buffer, so its end does not overflow `usize`.
  have hend : pos + 1 + size.bytes.length + payload.length ≤ buf.length := by
    have := congrArg List.length h1
    simp only [List.length_drop, List.length_append] at this
    have := size.encodes.length_pos
    omega
  have hidx : index buf pos = .some id := by simp [index, hid]
  have hadd : addAssign usizeBits pos 1 = .some (pos + 1) := by
    rw [addAssign, if_pos (by omega)]
  have hchk : checkedAdd usizeBits (pos + 1 + size.bytes.length) payload.length
      = .some (pos + 1 + size.bytes.length + payload.length) := by
    rw [checkedAdd, if_pos (by omega)]
  rw [sectionLoop]
  simp only [if_pos hpos, hidx, hadd, hread, hlen, hchk, Parse.some_bind]
  rw [if_neg (by omega)]

/-- The section loop at skipped sections and a memory section behind them. -/
theorem sectionLoop_of_walk (hsize : buf.length < 2 ^ usizeBits) (size : LebBytes)
    (limits : LooseLimits) {rest : List UInt8}
    (hle : size.word.toNat ≤ (limits.bytes ++ rest).length) (skipped : List SkippedSection) :
    ∀ {fuel pos : Nat}, buf.drop pos = skipped.flatMap SkippedSection.bytes ++
        5 :: (size.bytes ++ (limits.bytes ++ rest)) →
      buf.length ≤ pos + fuel →
      sectionLoop usizeBits buf fuel pos = .some limits.memoryType := by
  induction skipped with
  | nil =>
    intro fuel pos h hfuel
    have hpos := (List.getElem?_eq_some_iff.mp (getElem?_of_drop h)).1
    obtain ⟨fuel, rfl⟩ : ∃ f, fuel = f + 1 := ⟨fuel - 1, by omega⟩
    have hlimits := drop_of_drop_append (drop_succ_of_drop h)
    -- The declared payload, of which nothing but the length matters.
    have hsplit := (List.take_append_drop size.word.toNat (limits.bytes ++ rest)).symm
    rw [hsplit] at h
    rw [sectionLoop_succ hsize size (by rw [List.length_take]; omega) h, if_pos rfl]
    exact readLimits_of_loose hsize limits hlimits
  | cons s skipped ih =>
    intro fuel pos h hfuel
    simp only [List.flatMap_cons, SkippedSection.bytes, List.cons_append, List.append_assoc] at h
    have hpos := (List.getElem?_eq_some_iff.mp (getElem?_of_drop h)).1
    obtain ⟨fuel, rfl⟩ : ∃ f, fuel = f + 1 := ⟨fuel - 1, by omega⟩
    rw [sectionLoop_succ hsize s.size s.size_eq h, if_neg s.id_ne]
    exact ih (drop_of_drop_append (drop_of_drop_append (drop_succ_of_drop h))) (by omega)

/-- One iteration of the loop ends it with `None`, or finds a section at the cursor. -/
theorem sectionLoop_succ_cases (hsize : buf.length < 2 ^ usizeBits) (fuel pos : Nat) :
    sectionLoop usizeBits buf (fuel + 1) pos = .none ∨
    ∃ (id : UInt8) (size : LebBytes) (payload rest : List UInt8),
      size.word.toNat = payload.length ∧
        buf.drop pos = id :: (size.bytes ++ (payload ++ rest)) := by
  by_cases hpos : pos < buf.length
  swap
  · exact Or.inl (by rw [sectionLoop, if_neg hpos])
  have hid := List.getElem?_eq_getElem hpos
  have hidx : index buf pos = .some buf[pos] := by simp [index, hpos]
  have hadd : addAssign usizeBits pos 1 = .some (pos + 1) := if_pos (by omega)
  rcases readLebU32_cases hsize (pos + 1) with hread | ⟨size, rest, hdrop, hread⟩
  · exact Or.inl (by simp [sectionLoop, hpos, hidx, hadd, hread])
  by_cases hle : size.word.toNat ≤ rest.length
  · refine Or.inr ⟨buf[pos], size, rest.take size.word.toNat, rest.drop size.word.toNat, ?_, ?_⟩
    · rw [List.length_take]
      omega
    · rw [drop_of_getElem? hid, hdrop, List.take_append_drop]
  · -- The payload does not lie in the buffer, whether or not its end overflows.
    have hlen := congrArg List.length hdrop
    simp only [List.length_drop, List.length_append] at hlen
    have hposn := size.encodes.length_pos
    refine Or.inl ?_
    rw [sectionLoop]
    simp only [if_pos hpos, hidx, hadd, hread, Parse.some_bind, checkedAdd]
    split
    · rw [Parse.some_bind, if_pos (by omega)]
    · rfl

/-- The section loop returns `None`, or finds skipped sections and a memory section behind the
cursor. -/
theorem sectionLoop_cases (hsize : buf.length < 2 ^ usizeBits) :
    ∀ fuel pos, buf.length ≤ pos + fuel →
      sectionLoop usizeBits buf fuel pos = .none ∨
      ∃ (skipped : List SkippedSection) (size : LebBytes) (limits : LooseLimits)
        (rest : List UInt8), size.word.toNat ≤ (limits.bytes ++ rest).length ∧
          buf.drop pos = skipped.flatMap SkippedSection.bytes ++
            5 :: (size.bytes ++ (limits.bytes ++ rest)) := by
  intro fuel
  induction fuel with
  | zero =>
    intro pos hfuel
    exact Or.inl (by rw [sectionLoop, if_neg (by omega)])
  | succ fuel ih =>
    intro pos hfuel
    rcases sectionLoop_succ_cases hsize fuel pos with hnone | ⟨id, size, payload, rest, hlen, h⟩
    · exact Or.inl hnone
    rw [sectionLoop_succ hsize size hlen h]
    have h₁ := drop_of_drop_append (drop_succ_of_drop h)
    by_cases hid : id = 5
    · rw [if_pos hid]
      rcases readLimits_cases hsize (pos + 1 + size.bytes.length) with hnone | ⟨l, tail, hl⟩
      · exact Or.inl hnone
      · have heq : payload ++ rest = l.bytes ++ tail := h₁.symm.trans hl
        refine Or.inr ⟨[], size, l, tail, ?_, ?_⟩
        · rw [hlen, ← heq, List.length_append]
          omega
        · rw [h, hid, heq]
          rfl
    · rw [if_neg hid]
      rcases ih (pos + 1 + size.bytes.length + payload.length) (by omega) with
        hnone | ⟨skipped, size', limits, tail, hle, hrest⟩
      · exact Or.inl hnone
      · refine Or.inr ⟨⟨id, hid, size, payload, hlen⟩ :: skipped, size', limits, tail, hle, ?_⟩
        rw [h, ← drop_of_drop_append h₁, hrest]
        simp [SkippedSection.bytes]

/-! ### The parser -/

/-- The slice of the magic does not panic: the length was checked before. -/
theorem parseMemoryType_eq (usizeBits : Nat) (buf : List UInt8) :
    parseMemoryType usizeBits buf = if buf.length < 8 ∨ buf.take 4 ≠ wasmMagic then .none
      else sectionLoop usizeBits buf buf.length 8 := by
  unfold parseMemoryType
  by_cases hlen : buf.length < 8
  · rw [if_pos hlen, if_pos (Or.inl hlen)]
  · have hslice : slice buf 0 4 = .some (buf.take 4) := by
      rw [slice, if_pos ⟨Nat.zero_le 4, by omega⟩, List.drop_zero]
    rw [if_neg hlen, hslice, Parse.some_bind]
    simp only [hlen, false_or]

/-- Behind the preamble, the parser is the section loop. -/
theorem parseMemoryType_of_preamble {version rest : List UInt8} (hversion : version.length = 4)
    (h : buf = wasmMagic ++ (version ++ rest)) :
    parseMemoryType usizeBits buf = sectionLoop usizeBits buf buf.length 8 ∧
      buf.drop 8 = rest := by
  have hlen : 8 ≤ buf.length := by
    simp only [h, List.length_append, hversion, wasmMagic, List.length_cons, List.length_nil]
    omega
  have hmagic : buf.take 4 = wasmMagic := by
    rw [h]
    rfl
  have hdrop : buf.drop 8 = rest := by
    have hzero : buf.drop 0 = wasmMagic ++ (version ++ rest) := h
    have hrest := drop_of_drop_append (drop_of_drop_append hzero)
    rwa [hversion] at hrest
  refine ⟨?_, hdrop⟩
  rw [parseMemoryType_eq, if_neg (by rw [hmagic]; simp; omega)]

/-- On the bytes of a walk, the parser returns the limits of the walk. -/
theorem parseMemoryType_of_walk (w : SectionWalk) (hsize : w.bytes.length < 2 ^ usizeBits) :
    parseMemoryType usizeBits w.bytes = .some w.limits.memoryType := by
  obtain ⟨hparse, hdrop⟩ :=
    @parseMemoryType_of_preamble usizeBits w.bytes w.version _ w.version_length rfl
  rw [hparse]
  exact sectionLoop_of_walk hsize w.size w.limits w.size_le w.skipped hdrop (by omega)

/-- On a buffer that is not the bytes of a walk, the parser returns `None`. -/
theorem parseMemoryType_cases (hsize : buf.length < 2 ^ usizeBits) :
    parseMemoryType usizeBits buf = .none ∨ ∃ w : SectionWalk, w.bytes = buf := by
  by_cases hhead : buf.length < 8 ∨ buf.take 4 ≠ wasmMagic
  · exact Or.inl ((parseMemoryType_eq usizeBits buf).trans (if_pos hhead))
  rw [parseMemoryType_eq, if_neg hhead]
  obtain ⟨hlen, hmagic⟩ := not_or.mp hhead
  rcases sectionLoop_cases hsize buf.length 8 (by omega) with
    hnone | ⟨skipped, size, limits, rest, hle, h⟩
  · exact Or.inl hnone
  · refine Or.inr ⟨⟨(buf.drop 4).take 4, ?_, skipped, size, limits, rest, hle⟩, ?_⟩
    · rw [List.length_take, List.length_drop]
      omega
    · show wasmMagic ++ ((buf.drop 4).take 4 ++ (_ ++ 5 :: _)) = buf
      rw [← h, ← not_not.mp hmagic, show (8 : Nat) = 4 + 4 from rfl, ← List.drop_drop,
        List.take_append_drop, List.take_append_drop]

/-! ### One walk at most -/

/-- Limits are determined by the bytes that they start. -/
theorem looseLimits_injective {l l' : LooseLimits} {rest rest' : List UInt8}
    (h : l.bytes ++ rest = l'.bytes ++ rest') : l = l' ∧ rest = rest' := by
  obtain ⟨count, flags, minimum, maximum, hcount, hmax⟩ := l
  obtain ⟨count', flags', minimum', maximum', hcount', hmax'⟩ := l'
  simp only [LooseLimits.bytes, List.append_assoc] at h hmax hmax'
  obtain ⟨rfl, h₁⟩ := LebBytes.append_inj h
  obtain ⟨rfl, h₂⟩ := LebBytes.append_inj h₁
  obtain ⟨rfl, h₃⟩ := LebBytes.append_inj h₂
  -- Equal flags: both have a maximum, or none has one.
  have hsome := hmax.trans hmax'.symm
  cases maximum with
  | none =>
    cases maximum' with
    | none => exact ⟨rfl, h₃⟩
    | some n => simp at hsome
  | some m =>
    cases maximum' with
    | none => simp at hsome
    | some n =>
      obtain ⟨rfl, h₄⟩ := LebBytes.append_inj h₃
      exact ⟨rfl, h₄⟩

/-- A skipped section is determined by the bytes that it starts. -/
theorem skippedSection_injective {s s' : SkippedSection} {rest rest' : List UInt8}
    (h : s.bytes ++ rest = s'.bytes ++ rest') : s = s' ∧ rest = rest' := by
  obtain ⟨id, hid, size, payload, hsize⟩ := s
  obtain ⟨id', hid', size', payload', hsize'⟩ := s'
  simp only [SkippedSection.bytes, List.cons_append, List.append_assoc] at h
  obtain ⟨rfl, h₁⟩ := List.cons.inj h
  obtain ⟨rfl, h₂⟩ := LebBytes.append_inj h₁
  obtain ⟨rfl, h₃⟩ := List.append_inj h₂ (hsize.symm.trans hsize')
  exact ⟨rfl, h₃⟩

/-- Skipped sections at the start of the bytes are among those before the memory section. -/
theorem skipped_prefix {skipped skipped' : List SkippedSection} {rest rest' : List UInt8}
    (h : skipped.flatMap SkippedSection.bytes ++ rest
      = skipped'.flatMap SkippedSection.bytes ++ 5 :: rest') :
    ∃ more, skipped' = skipped ++ more ∧
      rest = more.flatMap SkippedSection.bytes ++ 5 :: rest' := by
  induction skipped generalizing skipped' with
  | nil => exact ⟨skipped', rfl, h⟩
  | cons s skipped ih =>
    cases skipped' with
    | nil => exact absurd (List.cons.inj h).1 s.id_ne
    | cons s' skipped' =>
      rw [List.flatMap_cons, List.flatMap_cons, List.append_assoc, List.append_assoc] at h
      obtain ⟨rfl, htail⟩ := skippedSection_injective h
      obtain ⟨more, rfl, hrest⟩ := ih htail
      exact ⟨more, rfl, hrest⟩

/-- Skipped sections and what follows them are determined by the bytes, where the next section is
a memory section. -/
theorem skipped_injective {skipped skipped' : List SkippedSection} {rest rest' : List UInt8}
    (h : skipped.flatMap SkippedSection.bytes ++ 5 :: rest
      = skipped'.flatMap SkippedSection.bytes ++ 5 :: rest') :
    skipped = skipped' ∧ rest = rest' := by
  obtain ⟨more, rfl, hrest⟩ := skipped_prefix h
  cases more with
  | nil => exact ⟨(List.append_nil skipped).symm, (List.cons.inj hrest).2⟩
  | cons s more => exact absurd (List.cons.inj hrest).1.symm s.id_ne

/-- A buffer is the bytes of one walk at most. -/
theorem walk_injective {w w' : SectionWalk} (h : w.bytes = w'.bytes) : w = w' := by
  obtain ⟨version, hversion, skipped, size, limits, rest, hle⟩ := w
  obtain ⟨version', hversion', skipped', size', limits', rest', hle'⟩ := w'
  obtain ⟨rfl, h₁⟩ := List.append_inj (List.append_cancel_left h)
    (hversion.trans hversion'.symm)
  obtain ⟨rfl, h₂⟩ := skipped_injective h₁
  obtain ⟨rfl, h₃⟩ := LebBytes.append_inj h₂
  obtain ⟨rfl, rfl⟩ := looseLimits_injective h₃
  rfl

end Wamrx.Proofs
