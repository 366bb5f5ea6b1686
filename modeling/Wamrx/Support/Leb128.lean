import Mathlib.Algebra.Group.Nat.Defs

/-!
# `Support.Leb128`: unsigned LEB128 encodings

`Leb128 bs v` says that the bytes `bs` are an unsigned LEB128 encoding of `v`: seven bits a
byte, the low group first, and every byte but the last with its top bit set. Padded encodings
count: the last groups may be zero. The relation mentions no decoder.

* `Leb128.append_inj`: the code is prefix-free, and an encoding has one value.
* `leb128_iff`: the encodings, by the top bits of the bytes and the sum of the groups.

`LebBytes` is an encoding in at most five bytes, which can carry up to 35 bits. `LebU32` is one
whose value fits 32 bits.
-/

set_option autoImplicit false

namespace Support

/-- The bytes encode the number, minimally or padded. -/
inductive Leb128 : List UInt8 → Nat → Prop where
  | last (b : UInt8) : b.toNat < 128 → Leb128 [b] b.toNat
  | more (b : UInt8) (bs : List UInt8) (v : Nat) : 128 ≤ b.toNat → Leb128 bs v →
      Leb128 (b :: bs) (b.toNat - 128 + 128 * v)

namespace Leb128

/-- An encoding has at least one byte. -/
theorem length_pos {bs : List UInt8} {v : Nat} (h : Leb128 bs v) : 0 < bs.length := by
  cases h <;> simp

/-- The end of an encoding can be seen: encodings that start the same bytes are the same. -/
theorem append_inj {as bs rest rest' : List UInt8} {v w : Nat} (ha : Leb128 as v)
    (hb : Leb128 bs w) (h : as ++ rest = bs ++ rest') : as = bs ∧ v = w ∧ rest = rest' := by
  induction ha generalizing bs w with
  | last a hlt =>
    cases hb with
    | last b hlt' =>
      obtain ⟨rfl, rfl⟩ := List.cons.inj h
      exact ⟨rfl, rfl, rfl⟩
    | more b bs v' hge _ =>
      obtain ⟨rfl, -⟩ := List.cons.inj h
      omega
  | more a as v hge _ ih =>
    cases hb with
    | last b hlt =>
      obtain ⟨rfl, -⟩ := List.cons.inj h
      omega
    | more b bs v' _ hbs =>
      obtain ⟨rfl, htail⟩ := List.cons.inj h
      obtain ⟨rfl, rfl, rfl⟩ := ih hbs htail
      exact ⟨rfl, rfl, rfl⟩

end Leb128

/-! ### Encodings as sums -/

/-- The sum of the groups: the low seven bits of each byte, the first byte lowest. -/
def lebSum : List UInt8 → Nat
  | [] => 0
  | b :: bs => b.toNat % 128 + 128 * lebSum bs

/-- The groups of later bytes stand above those of earlier bytes. -/
theorem lebSum_append (bs cs : List UInt8) :
    lebSum (bs ++ cs) = lebSum bs + 128 ^ bs.length * lebSum cs := by
  induction bs with
  | nil => simp [lebSum]
  | cons b bs ih =>
    rw [List.cons_append, lebSum, lebSum, ih, List.length_cons, Nat.mul_add, ← Nat.mul_assoc,
      ← Nat.pow_succ', Nat.add_assoc]

/-- Each byte carries seven bits. -/
theorem lebSum_lt (bs : List UInt8) : lebSum bs < 128 ^ bs.length := by
  induction bs with
  | nil => exact Nat.one_pos
  | cons b bs ih =>
    rw [lebSum, List.length_cons, Nat.pow_succ']
    omega

/-- Every byte but the last has its top bit set. -/
structure LebShape (bs : List UInt8) : Prop where
  ne_nil : bs ≠ []
  continued : ∀ b ∈ bs.dropLast, 128 ≤ b.toNat
  ended : ∀ b ∈ bs.getLast?, b.toNat < 128

/-- One byte of the right shape is the last one. -/
theorem lebShape_singleton {b : UInt8} : LebShape [b] ↔ b.toNat < 128 := by
  constructor
  · intro h
    exact h.ended b rfl
  · intro h
    exact ⟨by simp, by simp, by simpa using h⟩

/-- A byte in front of another continues the number. -/
theorem lebShape_cons {b c : UInt8} {bs : List UInt8} :
    LebShape (b :: c :: bs) ↔ 128 ≤ b.toNat ∧ LebShape (c :: bs) := by
  constructor
  · intro h
    obtain ⟨hb, hbs⟩ := List.forall_mem_cons.mp h.continued
    exact ⟨hb, by simp, hbs, fun d hd => h.ended d (by simpa using hd)⟩
  · rintro ⟨hb, h⟩
    refine ⟨by simp, List.forall_mem_cons.mpr ⟨hb, h.continued⟩, fun d hd => h.ended d ?_⟩
    simpa using hd

/-- The bytes encode a number exactly when they have the right shape and the groups sum up to
it. -/
theorem leb128_iff {bs : List UInt8} {v : Nat} : Leb128 bs v ↔ LebShape bs ∧ lebSum bs = v := by
  induction bs generalizing v with
  | nil =>
    constructor
    · intro h
      cases h
    · intro h
      exact absurd rfl h.1.ne_nil
  | cons b bs ih =>
    cases bs with
    | nil =>
      rw [lebShape_singleton]
      constructor
      · intro h
        cases h with
        | last _ hb => exact ⟨hb, by simp [lebSum, Nat.mod_eq_of_lt hb]⟩
        | more _ _ w _ hbs => cases hbs
      · rintro ⟨hb, rfl⟩
        simpa [lebSum, Nat.mod_eq_of_lt hb] using Leb128.last b hb
    | cons c bs =>
      have hmod : 128 ≤ b.toNat → b.toNat % 128 = b.toNat - 128 := by
        have := b.toNat_lt
        omega
      rw [lebShape_cons]
      constructor
      · intro h
        cases h with
        | more _ _ w hb hbs =>
          obtain ⟨hshape, hsum⟩ := ih.mp hbs
          refine ⟨⟨hb, hshape⟩, ?_⟩
          show b.toNat % 128 + 128 * lebSum (c :: bs) = _
          rw [hmod hb, hsum]
      · rintro ⟨⟨hb, hshape⟩, rfl⟩
        show Leb128 _ (b.toNat % 128 + 128 * lebSum (c :: bs))
        rw [hmod hb]
        exact .more b _ _ hb (ih.mpr ⟨hshape, rfl⟩)

/-- An encoding in at most five bytes. -/
structure LebBytes where
  bytes : List UInt8
  value : Nat
  encodes : Leb128 bytes value
  length_le : bytes.length ≤ 5

namespace LebBytes

/-- The low 32 bits of the value. -/
def word (n : LebBytes) : UInt32 := UInt32.ofNat n.value

theorem append_inj {m n : LebBytes} {rest rest' : List UInt8}
    (h : m.bytes ++ rest = n.bytes ++ rest') : m = n ∧ rest = rest' := by
  obtain ⟨hbytes, hvalue, hrest⟩ := m.encodes.append_inj n.encodes h
  cases m
  cases n
  cases hbytes
  cases hvalue
  exact ⟨rfl, hrest⟩

end LebBytes

/-- An encoding of a 32-bit number, in at most five bytes. -/
structure LebU32 where
  bytes : List UInt8
  value : Nat
  encodes : Leb128 bytes value
  length_le : bytes.length ≤ 5
  value_lt : value < 2 ^ 32

namespace LebU32

/-- The encoding without the bound on its value. -/
def toLebBytes (n : LebU32) : LebBytes := ⟨n.bytes, n.value, n.encodes, n.length_le⟩

/-- A number of seven bits, in one byte. -/
def ofBits (x : BitVec 7) : LebU32 where
  bytes := [UInt8.ofNat x.toNat]
  value := x.toNat
  encodes := by
    have hlt : x.toNat < 128 := x.isLt
    have hbyte : (UInt8.ofNat x.toNat).toNat = x.toNat :=
      UInt8.toNat_ofNat_of_lt' (Nat.lt_trans hlt (by decide))
    have hlast := Leb128.last (UInt8.ofNat x.toNat) (by rwa [hbyte])
    rwa [hbyte] at hlast
  length_le := Nat.le_add_left 1 4
  value_lt := Nat.lt_trans x.isLt (by decide)

theorem toNat_word (n : LebU32) : n.toLebBytes.word.toNat = n.value :=
  UInt32.toNat_ofNat_of_lt' n.value_lt

end LebU32

/-- An encoding whose value fits 32 bits. -/
def LebBytes.toLebU32 (n : LebBytes) (h : n.value < 2 ^ 32) : LebU32 :=
  ⟨n.bytes, n.value, n.encodes, n.length_le, h⟩

end Support
