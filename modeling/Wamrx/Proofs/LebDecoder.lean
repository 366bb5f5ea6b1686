import Mathlib.Data.List.Basic
import Wamrx.Proofs.ParserPanics

/-!
# `Wamrx.Proofs.LebDecoder`: where `readLebU32` is the LEB128 decoder

The documentation of `read_leb_u32` says "Returns `None` if the input is truncated or the value
overflows 32 bits". `LebBytesAt` is the decoder's side, in terms of the bytes at a position: which
bytes make up the number there.

`readLebU32_decodes_iff`: at a position, the reader does what the documentation says (`DecodesAt`)
exactly when there is no number whose fifth byte has a bit above the lowest four. Such a number is
`2 ^ 32` or more, and the reader returns its low 32 bits.
-/

set_option autoImplicit false

namespace Wamrx.Proofs

open Support

variable {usizeBits : Nat} {buf : List UInt8} {pos : Nat}

/-- The bytes are those at the position, one to five of them, and end with the first that has no
continuation bit. -/
structure LebBytesAt (buf : List UInt8) (pos : Nat) (bs : List UInt8) : Prop where
  at_pos : bs <+: buf.drop pos
  ne_nil : bs ≠ []
  length_le : bs.length ≤ 5
  continued : ∀ b ∈ bs.dropLast, b &&& 0x80 ≠ 0
  ended : ∀ b ∈ bs.getLast?, b &&& 0x80 = 0

/-- The bytes at a position that make up a number, as an encoding. -/
theorem lebBytesAt_iff {bs : List UInt8} :
    LebBytesAt buf pos bs ↔
      ∃ (n : LebBytes) (rest : List UInt8), n.bytes = bs ∧ buf.drop pos = n.bytes ++ rest := by
  constructor
  · intro h
    have hshape : LebShape bs :=
      ⟨h.ne_nil, fun b hb => Nat.not_lt.mp (mt (and_0x80_eq_zero b).mpr (h.continued b hb)),
        fun b hb => (and_0x80_eq_zero b).mp (h.ended b hb)⟩
    obtain ⟨rest, hrest⟩ := h.at_pos
    exact ⟨⟨bs, lebSum bs, leb128_iff.mpr ⟨hshape, rfl⟩, h.length_le⟩, rest, rfl, hrest.symm⟩
  · rintro ⟨n, rest, rfl, hdrop⟩
    obtain ⟨hshape, -⟩ := leb128_iff.mp n.encodes
    exact ⟨⟨rest, hdrop.symm⟩, hshape.ne_nil, n.length_le,
      fun b hb => mt (and_0x80_eq_zero b).mp (Nat.not_lt.mpr (hshape.continued b hb)),
      fun b hb => (and_0x80_eq_zero b).mpr (hshape.ended b hb)⟩

/-- At most one number stands at a position. -/
theorem lebBytesAt_unique {bs bs' : List UInt8} (h : LebBytesAt buf pos bs)
    (h' : LebBytesAt buf pos bs') : bs = bs' := by
  obtain ⟨n, rest, rfl, hdrop⟩ := lebBytesAt_iff.mp h
  obtain ⟨n', rest', rfl, hdrop'⟩ := lebBytesAt_iff.mp h'
  rw [(LebBytes.append_inj (hdrop.symm.trans hdrop')).1]

/-- The reader returns the low 32 bits of the number at the position, and `None` where there is
none. -/
theorem readLebU32_spec (hsize : buf.length < 2 ^ usizeBits) (pos : Nat) :
    (∃ bs, LebBytesAt buf pos bs ∧
      readLebU32 usizeBits buf pos = .some (UInt32.ofNat (lebSum bs), pos + bs.length)) ∨
    ((¬ ∃ bs, LebBytesAt buf pos bs) ∧ readLebU32 usizeBits buf pos = .none) := by
  by_cases hex : ∃ bs, LebBytesAt buf pos bs
  · obtain ⟨bs, hbs⟩ := hex
    obtain ⟨n, rest, rfl, hdrop⟩ := lebBytesAt_iff.mp hbs
    refine Or.inl ⟨n.bytes, hbs, ?_⟩
    rw [readLebU32_of_bytes hsize n hdrop, LebBytes.word, (leb128_iff.mp n.encodes).2]
  · refine Or.inr ⟨hex, ?_⟩
    rcases readLebU32_cases hsize pos with hnone | ⟨n, rest, hdrop, -⟩
    · exact hnone
    · exact absurd ⟨n.bytes, lebBytesAt_iff.mpr ⟨n, rest, rfl, hdrop⟩⟩ hex

/-! ### The fifth byte -/

/-- The fifth byte at the position ends a number and has a bit above the lowest four. -/
def FifthByteOverflows (buf : List UInt8) (pos : Nat) : Prop :=
  ∃ init last, init ++ [last] <+: buf.drop pos ∧ init.length = 4 ∧
    (∀ b ∈ init, b &&& 0x80 ≠ 0) ∧ 0x10 ≤ last ∧ last < 0x80

/-- Such a byte and the four before it make up a number. -/
theorem lebBytesAt_of_fifth {init : List UInt8} {last : UInt8}
    (hpre : init ++ [last] <+: buf.drop pos) (hlen : init.length = 4)
    (hinit : ∀ b ∈ init, b &&& 0x80 ≠ 0) (hlast : last < 0x80) :
    LebBytesAt buf pos (init ++ [last]) := by
  refine ⟨hpre, by simp, by simp [hlen], by simpa using hinit, ?_⟩
  intro b hb
  obtain rfl : last = b := by simpa using hb
  exact (and_0x80_eq_zero last).mpr hlast

/-- Four groups have 28 bits, and the fifth stands above them. -/
theorem two_pow_le_lebSum_iff {bs : List UInt8} (h : LebBytesAt buf pos bs) :
    2 ^ 32 ≤ lebSum bs ↔ FifthByteOverflows buf pos := by
  have hpow : 128 ^ 4 * 16 = 2 ^ 32 := by decide
  constructor
  · intro hsum
    obtain ⟨init, last, rfl⟩ := (List.eq_nil_or_concat' bs).resolve_left h.ne_nil
    have hinit : ∀ b ∈ init, b &&& 0x80 ≠ 0 := by simpa using h.continued
    have hlast : last.toNat < 128 := (and_0x80_eq_zero last).mp (by simpa using h.ended)
    have hsplit : lebSum (init ++ [last]) = lebSum init + 128 ^ init.length * last.toNat := by
      rw [lebSum_append]
      simp [lebSum, Nat.mod_eq_of_lt hlast]
    -- Fewer than five groups stay below the word.
    have hlen : init.length = 4 := by
      have hle := h.length_le
      have hbound := Nat.lt_of_le_of_lt hsum (lebSum_lt _)
      rw [List.length_append, List.length_singleton] at hle hbound
      have hge : ¬ init.length + 1 ≤ 4 := fun h4 => by
        have := Nat.pow_le_pow_right (n := 128) (by decide) h4
        omega
      omega
    have hlow := lebSum_lt init
    rw [hsplit, hlen] at hsum
    rw [hlen] at hlow
    refine ⟨init, last, h.at_pos, hlen, hinit, ?_, hlast⟩
    show 16 ≤ last.toNat
    omega
  · rintro ⟨init, last, hpre, hlen, hinit, hge, hlt⟩
    obtain rfl := lebBytesAt_unique h (lebBytesAt_of_fifth hpre hlen hinit hlt)
    have hge : 16 ≤ last.toNat := hge
    have hlt : last.toNat < 128 := hlt
    rw [lebSum_append, hlen]
    simp only [lebSum, Nat.mod_eq_of_lt hlt]
    omega

/-! ### Exactness -/

/-- What the documentation says of the reader at a position: it returns the numbers that fit 32
bits, with the cursor past them, and `None` in every other case. -/
structure DecodesAt (usizeBits : Nat) (buf : List UInt8) (pos : Nat) : Prop where
  some_iff : ∀ v pos', readLebU32 usizeBits buf pos = .some (v, pos') ↔
    ∃ bs, LebBytesAt buf pos bs ∧ lebSum bs = v.toNat ∧ lebSum bs < 2 ^ 32 ∧
      pos' = pos + bs.length
  none_of : (¬ ∃ bs, LebBytesAt buf pos bs ∧ lebSum bs < 2 ^ 32) →
    readLebU32 usizeBits buf pos = .none

/-- A number of `2 ^ 32` or more is not rejected. -/
theorem not_decodesAt_of_overflow (hsize : buf.length < 2 ^ usizeBits) {bs : List UInt8}
    (hbs : LebBytesAt buf pos bs) (hsum : 2 ^ 32 ≤ lebSum bs) : ¬ DecodesAt usizeBits buf pos := by
  intro h
  have hnone := h.none_of fun ⟨bs', hbs', hlt⟩ => by
    obtain rfl := lebBytesAt_unique hbs hbs'
    omega
  rcases readLebU32_spec hsize pos with ⟨bs', -, hread⟩ | ⟨hno, -⟩
  · rw [hread] at hnone
    cases hnone
  · exact hno ⟨bs, hbs⟩

/-- For every buffer and every position: the reader is the LEB128 decoder for 32-bit numbers there
exactly when no number at the position has a fifth byte above `0x0f`. -/
theorem readLebU32_decodes_iff (usizeBits : Nat) (buf : List UInt8)
    (hsize : buf.length ≤ isizeMax usizeBits) (pos : Nat) :
    DecodesAt usizeBits buf pos ↔ ¬ FifthByteOverflows buf pos := by
  have hsize := lt_two_pow_of_le_isizeMax hsize
  constructor
  · intro hdecodes hover
    obtain ⟨init, last, hpre, hlen, hinit, -, hlast⟩ := id hover
    have hbs := lebBytesAt_of_fifth hpre hlen hinit hlast
    exact not_decodesAt_of_overflow hsize hbs ((two_pow_le_lebSum_iff hbs).mpr hover) hdecodes
  · intro hfits
    rcases readLebU32_spec hsize pos with ⟨bs, hbs, hread⟩ | ⟨hno, hread⟩
    · have hlt : lebSum bs < 2 ^ 32 := Nat.not_le.mp (mt (two_pow_le_lebSum_iff hbs).mp hfits)
      refine ⟨fun v pos' => ?_, fun hno => absurd ⟨bs, hbs, hlt⟩ hno⟩
      rw [hread]
      constructor
      · intro hsome
        cases hsome
        exact ⟨bs, hbs, (UInt32.toNat_ofNat_of_lt' hlt).symm, hlt, rfl⟩
      · rintro ⟨bs', hbs', hv, -, rfl⟩
        obtain rfl := lebBytesAt_unique hbs hbs'
        rw [hv, UInt32.ofNat_toNat]
    · refine ⟨fun v pos' => ?_, fun _ => hread⟩
      rw [hread]
      constructor
      · rintro ⟨⟩
      · rintro ⟨bs, hbs, -⟩
        exact absurd ⟨bs, hbs⟩ hno

/-- The largest number, behind one byte. -/
theorem readLebU32_decodes_max :
    readLebU32 64 [7, 0xff, 0xff, 0xff, 0xff, 0x0f] 1 = .some (0xffffffff, 6) := by
  have hbs : LebBytesAt [7, 0xff, 0xff, 0xff, 0xff, 0x0f] 1 ([0xff, 0xff, 0xff, 0xff] ++ [0x0f]) :=
    lebBytesAt_of_fifth ⟨[], rfl⟩ rfl (by simp [and_0x80_eq_zero]) (by decide)
  have hfits : ¬ FifthByteOverflows [7, 0xff, 0xff, 0xff, 0xff, 0x0f] 1 :=
    mt (two_pow_le_lebSum_iff hbs).mpr (by decide)
  have hdecodes := (readLebU32_decodes_iff 64 _ (by decide) 1).mpr hfits
  exact (hdecodes.some_iff _ _).mpr ⟨_, hbs, by decide, by decide, rfl⟩

/-- Five bytes that make up `2 ^ 32 + 2` are read as 2. -/
theorem readLebU32_truncates :
    LebBytesAt [0x82, 0x80, 0x80, 0x80, 0x10] 0 [0x82, 0x80, 0x80, 0x80, 0x10] ∧
    lebSum [0x82, 0x80, 0x80, 0x80, 0x10] = 2 ^ 32 + 2 ∧
    readLebU32 64 [0x82, 0x80, 0x80, 0x80, 0x10] 0 = .some (2, 5) ∧
    ¬ DecodesAt 64 [0x82, 0x80, 0x80, 0x80, 0x10] 0 := by
  have hbs : LebBytesAt [0x82, 0x80, 0x80, 0x80, 0x10] 0 ([0x82, 0x80, 0x80, 0x80] ++ [0x10]) :=
    lebBytesAt_of_fifth ⟨[], rfl⟩ rfl (by simp [and_0x80_eq_zero]) (by decide)
  exact ⟨hbs, by decide, by decide, not_decodesAt_of_overflow (by decide) hbs (by decide)⟩

end Wamrx.Proofs
