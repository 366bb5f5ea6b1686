import Mathlib.Data.Nat.Bitwise
import Mathlib.Tactic.Ring
import Wamrx.ModuleBytes
import Wamrx.Support.Leb128

/-!
# `Wamrx.Proofs.ReadLeb`: what `readLebU32` reads

`readLebLoop_succ` is the step equation of the loop: what one iteration does with the byte at
the cursor, in terms of numbers and not of masks and shifts.

* `readLebU32_of_bytes`: where the buffer holds a LEB128 encoding in at most five bytes, the
  reader returns the low 32 bits of its value and moves the cursor past the encoding.
* `readLebU32_of_encoded`: the round trip. A value that fits 32 bits is returned as it is.
* `readLebU32_cases`: the reader returns `None` where the buffer holds no such encoding.
-/

set_option autoImplicit false

namespace Wamrx.Proofs

open Support (Leb128 LebBytes LebU32)

/-! ### Masks and shifts as arithmetic -/

/-- The low seven bits of a byte. -/
theorem and_0x7f_toNat (b : UInt8) : (b &&& 0x7f).toUInt32.toNat = b.toNat % 128 := by
  rw [UInt8.toNat_toUInt32, UInt8.toNat_and]
  exact Nat.and_two_pow_sub_one_eq_mod b.toNat 7

/-- The continuation bit of a byte is clear exactly below 128. -/
theorem and_0x80_eq_zero (b : UInt8) : b &&& 0x80 = 0 ↔ b.toNat < 128 := by
  have hlt := b.toNat_lt
  rw [← UInt8.toNat_inj, UInt8.toNat_and]
  show b.toNat &&& 2 ^ 7 = 0 ↔ b.toNat < 128
  rw [Nat.and_two_pow, Nat.testBit_eq_decide_div_mod_eq]
  by_cases h : b.toNat / 2 ^ 7 % 2 = 1
  · simp only [h, decide_true, Bool.toNat_true]
    omega
  · simp only [h, decide_false, Bool.toNat_false]
    omega

/-- Placing `x` above the low `shift` bits of an accumulator adds it there. The bits of `x`
past the word are lost. -/
theorem or_shiftLeft_toNat {acc x : UInt32} {shift : Nat} (hshift : shift < 32)
    (hacc : acc.toNat < 2 ^ shift) :
    (acc ||| (x <<< UInt32.ofNat shift)).toNat = (acc.toNat + x.toNat * 2 ^ shift) % 2 ^ 32 := by
  -- The low `shift` bits and the bits above them make up the word.
  have hpow : (2 : Nat) ^ 32 = 2 ^ shift * 2 ^ (32 - shift) := by
    rw [← Nat.pow_add]
    congr 1
    omega
  have hs : (UInt32.ofNat shift).toNat % 32 = shift := by
    rw [UInt32.toNat_ofNat_of_lt' (by rw [show UInt32.size = 2 ^ 32 from rfl]; omega)]
    omega
  have hlow : (acc.toNat + 2 ^ shift * x.toNat) % 2 ^ shift = acc.toNat := by
    rw [Nat.add_mul_mod_self_left, Nat.mod_eq_of_lt hacc]
  have hhigh : (acc.toNat + 2 ^ shift * x.toNat) / 2 ^ shift = x.toNat := by
    rw [Nat.add_mul_div_left _ _ (Nat.two_pow_pos shift), Nat.div_eq_of_lt hacc, Nat.zero_add]
  rw [UInt32.toNat_or, UInt32.toNat_shiftLeft, hs, Nat.shiftLeft_eq, Nat.mul_comm, hpow,
    Nat.mul_mod_mul_left, Nat.or_comm, ← Nat.two_pow_add_eq_or_of_lt hacc, Nat.add_comm,
    Nat.mod_mul, hlow, hhigh]

/-! ### The loop -/

/-- One iteration of the loop, at a byte of the buffer. -/
theorem readLebLoop_succ {usizeBits : Nat} {buf : List UInt8} {fuel pos shift : Nat}
    {acc : UInt32} {b : UInt8} (hb : buf[pos]? = some b) (hpos : pos + 1 < 2 ^ usizeBits)
    (hshift : shift < 32) :
    readLebLoop usizeBits buf (fuel + 1) pos acc shift =
      if b.toNat < 128 then
        .some (acc ||| (b &&& 0x7f).toUInt32 <<< UInt32.ofNat shift, pos + 1)
      else if shift + 7 ≥ 32 then .none
      else readLebLoop usizeBits buf fuel (pos + 1)
        (acc ||| (b &&& 0x7f).toUInt32 <<< UInt32.ofNat shift) (shift + 7) := by
  have hget : get buf pos = .some b := by simp [get, hb, Parse.ofOption]
  have hadd : addAssign usizeBits pos 1 = .some (pos + 1) := by simp [addAssign, hpos]
  have hshl : checkedShl (b &&& 0x7f).toUInt32 shift
      = .some ((b &&& 0x7f).toUInt32 <<< UInt32.ofNat shift) := by simp [checkedShl, hshift]
  have hnext : addAssign 32 shift 7 = .some (shift + 7) := by
    rw [addAssign, if_pos (by omega)]
  rw [readLebLoop]
  simp only [hget, hadd, hshl, hnext, Parse.some_bind, Parse.pure_eq, and_0x80_eq_zero]

/-- The byte at the cursor, when the buffer from the cursor on is known. -/
theorem getElem?_of_drop {buf rest : List UInt8} {pos : Nat} {b : UInt8}
    (h : buf.drop pos = b :: rest) : buf[pos]? = some b := by
  have := congrArg (fun l => l[0]?) h
  simpa using this

/-- The buffer after the cursor, when the buffer from the cursor on is known. -/
theorem drop_of_drop_append {buf bs rest : List UInt8} {pos : Nat}
    (h : buf.drop pos = bs ++ rest) : buf.drop (pos + bs.length) = rest := by
  rw [← List.drop_drop, h, List.drop_left]

/-- The buffer after one byte at the cursor. -/
theorem drop_succ_of_drop {buf rest : List UInt8} {pos : Nat} {b : UInt8}
    (h : buf.drop pos = b :: rest) : buf.drop (pos + 1) = rest := by
  rw [← List.drop_drop, h]
  rfl

/-- The next group stands seven bits higher. -/
theorem two_pow_groups (i : Nat) : 2 ^ (7 * (i + 1)) = 128 * 2 ^ (7 * i) := by
  rw [Nat.mul_succ, Nat.pow_add, Nat.mul_comm]

/-- One group that is not the last, behind `i` groups: it lies below the word, so nothing is lost,
and `i + 1` groups are in the accumulator. -/
theorem or_group_toNat {acc : UInt32} {b : UInt8} {i : Nat} (hshift : 7 * i + 7 < 32)
    (hacc : acc.toNat < 2 ^ (7 * i)) (hb : 128 ≤ b.toNat) :
    (acc ||| (b &&& 0x7f).toUInt32 <<< UInt32.ofNat (7 * i)).toNat
        = acc.toNat + (b.toNat - 128) * 2 ^ (7 * i) ∧
      acc.toNat + (b.toNat - 128) * 2 ^ (7 * i) < 2 ^ (7 * (i + 1)) := by
  have hblt := b.toNat_lt
  have haccLt : acc.toNat + (b.toNat - 128) * 2 ^ (7 * i) < 2 ^ (7 * (i + 1)) := by
    have hlt : b.toNat - 128 + 1 ≤ 128 := by omega
    have := Nat.mul_le_mul_right (2 ^ (7 * i)) hlt
    rw [two_pow_groups]
    rw [Nat.add_mul] at this
    omega
  refine ⟨?_, haccLt⟩
  have hmod : b.toNat % 128 = b.toNat - 128 := by omega
  have hword : 2 ^ (7 * (i + 1)) ≤ 2 ^ 32 := Nat.pow_le_pow_right (by omega) (by omega)
  rw [or_shiftLeft_toNat (by omega) hacc, and_0x7f_toNat, hmod,
    Nat.mod_eq_of_lt (Nat.lt_of_lt_of_le haccLt hword)]

/-- The loop on the last `bs.length` bytes of an encoding, `i` groups into it. The invariant
is that the accumulator holds the `7 * i` bits read so far. -/
theorem readLebLoop_of_encoded {usizeBits : Nat} {buf : List UInt8}
    (hsize : buf.length < 2 ^ usizeBits) {bs : List UInt8} {v : Nat} (h : Leb128 bs v) :
    ∀ {rest : List UInt8} {fuel pos i : Nat} {acc : UInt32}, buf.drop pos = bs ++ rest →
      bs.length ≤ fuel → i + bs.length ≤ 5 → acc.toNat < 2 ^ (7 * i) →
      ∃ r : UInt32, r.toNat = (acc.toNat + v * 2 ^ (7 * i)) % 2 ^ 32 ∧
        readLebLoop usizeBits buf fuel pos acc (7 * i) = .some (r, pos + bs.length) := by
  induction h with
  | last b hb =>
    intro rest fuel pos i acc hdrop hfuel hi hacc
    obtain ⟨fuel, rfl⟩ : ∃ f, fuel = f + 1 := ⟨fuel - 1, by simp at hfuel; omega⟩
    have hshift : 7 * i < 32 := by simp at hi; omega
    have hget := getElem?_of_drop hdrop
    have hlen : pos < buf.length := (List.getElem?_eq_some_iff.mp hget).1
    refine ⟨_, ?_, by rw [readLebLoop_succ hget (by omega) hshift, if_pos hb]; rfl⟩
    -- Only this group can reach past the word.
    rw [or_shiftLeft_toNat hshift hacc, and_0x7f_toNat, Nat.mod_eq_of_lt hb]
  | more b bs v hb hbs ih =>
    intro rest fuel pos i acc hdrop hfuel hi hacc
    obtain ⟨fuel, rfl⟩ : ∃ f, fuel = f + 1 := ⟨fuel - 1, by simp at hfuel; omega⟩
    have hpos := hbs.length_pos
    simp only [List.length_cons] at hfuel hi
    have hshift : 7 * i + 7 < 32 := by omega
    have hget := getElem?_of_drop hdrop
    have hlen : pos < buf.length := (List.getElem?_eq_some_iff.mp hget).1
    have hdrop' : buf.drop (pos + 1) = bs ++ rest := drop_succ_of_drop hdrop
    have hnext : 7 * i + 7 = 7 * (i + 1) := by omega
    -- One group more in the accumulator: the invariant of the next round.
    obtain ⟨hgroup, haccLt⟩ := or_group_toNat hshift hacc hb
    have hvalue : acc.toNat + (b.toNat - 128) * 2 ^ (7 * i) + v * 2 ^ (7 * (i + 1))
        = acc.toNat + (b.toNat - 128 + 128 * v) * 2 ^ (7 * i) := by
      rw [two_pow_groups]
      ring
    obtain ⟨r, hr, hrun⟩ := @ih rest fuel (pos + 1) (i + 1) _ hdrop' (by omega)
      (by omega) (by rw [hgroup]; exact haccLt)
    refine ⟨r, by rw [hr, hgroup, hvalue], ?_⟩
    rw [readLebLoop_succ hget (by omega) (by omega), if_neg (by omega), if_neg (by omega),
      hnext, hrun, List.length_cons, Nat.add_assoc, Nat.add_comm 1]

/-- `readLebU32` at an encoding returns the low 32 bits of its value and the cursor past it. -/
theorem readLebU32_of_bytes {usizeBits : Nat} {buf rest : List UInt8}
    (hsize : buf.length < 2 ^ usizeBits) (n : LebBytes) {pos : Nat}
    (h : buf.drop pos = n.bytes ++ rest) :
    readLebU32 usizeBits buf pos = .some (n.word, pos + n.bytes.length) := by
  obtain ⟨r, hr, hrun⟩ := @readLebLoop_of_encoded _ _ hsize _ _ n.encodes rest 5 pos 0 0
    h n.length_le (by have := n.length_le; omega) (by simp)
  have hval : r = n.word := by
    apply UInt32.toNat.inj
    rw [hr, LebBytes.word, UInt32.toNat_ofNat]
    simp
  rw [readLebU32, show (0 : Nat) = 7 * 0 from rfl, hrun, hval]

/-- The round trip: `readLebU32` at an encoded number returns the number and the cursor past
its encoding. -/
theorem readLebU32_of_encoded {usizeBits : Nat} {buf rest : List UInt8}
    (hsize : buf.length < 2 ^ usizeBits) (n : LebU32) {pos : Nat}
    (h : buf.drop pos = n.bytes ++ rest) :
    readLebU32 usizeBits buf pos = .some (UInt32.ofNat n.value, pos + n.bytes.length) :=
  readLebU32_of_bytes hsize n.toLebBytes h

/-! ### Where the loop returns a number -/

/-- The byte at the cursor starts what is left of the buffer. -/
theorem drop_of_getElem? {buf : List UInt8} {pos : Nat} {b : UInt8} (h : buf[pos]? = some b) :
    buf.drop pos = b :: buf.drop (pos + 1) := by
  obtain ⟨hlt, rfl⟩ := List.getElem?_eq_some_iff.mp h
  exact List.drop_eq_getElem_cons hlt

/-- The loop, `i` groups into a number, returns `None` or finds the rest of an encoding. The fuel
that is left is the number of groups that may still follow. -/
theorem readLebLoop_cases {usizeBits : Nat} {buf : List UInt8}
    (hsize : buf.length < 2 ^ usizeBits) :
    ∀ (fuel i pos : Nat) (acc : UInt32), fuel + 1 + i = 5 →
      readLebLoop usizeBits buf (fuel + 1) pos acc (7 * i) = .none ∨
      ∃ bs v rest, Leb128 bs v ∧ bs.length ≤ fuel + 1 ∧ buf.drop pos = bs ++ rest := by
  intro fuel
  induction fuel with
  | zero =>
    intro i pos acc hi
    -- The last unit of fuel meets the fifth group.
    obtain rfl : i = 4 := by omega
    cases hb : buf[pos]? with
    | none => exact Or.inl (by simp [readLebLoop, get, hb, Parse.ofOption])
    | some b =>
      have hlt : pos < buf.length := (List.getElem?_eq_some_iff.mp hb).1
      by_cases hlast : b.toNat < 128
      · exact Or.inr ⟨[b], _, _, .last b hlast, by simp, drop_of_getElem? hb⟩
      · -- A fifth group with its continuation bit set: the shift passes 32.
        rw [readLebLoop_succ hb (by omega) (by omega), if_neg hlast, if_pos (by omega)]
        exact Or.inl rfl
  | succ fuel ih =>
    intro i pos acc hi
    cases hb : buf[pos]? with
    | none => exact Or.inl (by rw [readLebLoop]; simp [get, hb, Parse.ofOption])
    | some b =>
      have hlt : pos < buf.length := (List.getElem?_eq_some_iff.mp hb).1
      by_cases hlast : b.toNat < 128
      · exact Or.inr ⟨[b], _, _, .last b hlast, by simp, drop_of_getElem? hb⟩
      · rw [readLebLoop_succ hb (by omega) (by omega), if_neg hlast, if_neg (by omega),
          show 7 * i + 7 = 7 * (i + 1) by omega]
        rcases ih (i + 1) (pos + 1) _ (by omega) with hnone | ⟨bs, v, rest, hbs, hle, hdrop⟩
        · exact Or.inl hnone
        · refine Or.inr ⟨b :: bs, _, rest, .more b bs v (by omega) hbs, by simpa using hle, ?_⟩
          rw [drop_of_getElem? hb, hdrop]
          rfl

/-- `read_leb_u32` returns `None`, or the buffer holds an encoding at the cursor, of which it
returns the low 32 bits. -/
theorem readLebU32_cases {usizeBits : Nat} {buf : List UInt8}
    (hsize : buf.length < 2 ^ usizeBits) (pos : Nat) :
    readLebU32 usizeBits buf pos = .none ∨
    ∃ (n : LebBytes) (rest : List UInt8), buf.drop pos = n.bytes ++ rest ∧
      readLebU32 usizeBits buf pos = .some (n.word, pos + n.bytes.length) := by
  rcases readLebLoop_cases hsize 4 0 pos 0 rfl with hnone | ⟨bs, v, rest, hbs, hle, hdrop⟩
  · exact Or.inl hnone
  · have hread := readLebU32_of_bytes hsize ⟨bs, v, hbs, hle⟩ hdrop
    exact Or.inr ⟨⟨bs, v, hbs, hle⟩, rest, hdrop, hread⟩

end Wamrx.Proofs
