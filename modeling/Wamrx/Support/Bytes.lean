import Mathlib.Algebra.Group.Nat.Defs
import Mathlib.Data.Nat.Basic

/-!
# `Support.Bytes`: typed words in a block of bytes

A block is a list of bytes. `read?` and `write?` access a range of it, and `none` says that the
range does not lie in the block. `toLE` and `ofLE` are the little-endian encoding, and `load?` and
`store?` move whole words at any alignment.

* `getElem?_write?`: every byte after a write.
* `load?_store?_same`: a word is read back.
* `load?_store?_disjoint`: a disjoint word keeps its value.
-/

set_option autoImplicit false

namespace Support.Bytes

/-! ### Ranges -/

/-- The `n` bytes at the offset. -/
def read? (block : List UInt8) (off n : Nat) : Option (List UInt8) :=
  if off + n ≤ block.length then some ((block.drop off).take n) else none

/-- Replaces the bytes at the offset. -/
def write? (block : List UInt8) (off : Nat) (bs : List UInt8) : Option (List UInt8) :=
  if off + bs.length ≤ block.length then
    some (block.take off ++ (bs ++ block.drop (off + bs.length)))
  else none

variable {block block' bs : List UInt8} {off : Nat}

theorem length_write? (h : write? block off bs = some block') :
    block'.length = block.length := by
  unfold write? at h
  split at h
  · cases h
    simp only [List.length_append, List.length_take, List.length_drop]
    omega
  · cases h

/-- A write in the block succeeds. -/
theorem exists_write? (h : off + bs.length ≤ block.length) :
    ∃ block', write? block off bs = some block' := ⟨_, if_pos h⟩

/-- Every byte after a write: the new ones in the range, the old ones elsewhere. -/
theorem getElem?_write? (h : write? block off bs = some block') (i : Nat) :
    block'[i]? = if off ≤ i ∧ i < off + bs.length then bs[i - off]? else block[i]? := by
  unfold write? at h
  split at h
  · cases h
    have htake : (block.take off).length = off := by
      rw [List.length_take]
      omega
    rw [List.getElem?_append, htake]
    by_cases hlt : i < off
    · rw [if_pos hlt, if_neg (by omega), List.getElem?_take_of_lt hlt]
    · rw [if_neg hlt, List.getElem?_append]
      by_cases hin : i < off + bs.length
      · rw [if_pos (by omega), if_pos ⟨by omega, hin⟩]
      · rw [if_neg (by omega), if_neg (by omega), List.getElem?_drop]
        congr 1
        omega
  · cases h

/-- A range reads the same in two blocks that agree on it. -/
theorem read?_congr {n : Nat} (hlen : block'.length = block.length)
    (h : ∀ i, off ≤ i → i < off + n → block'[i]? = block[i]?) :
    read? block' off n = read? block off n := by
  unfold read?
  rw [hlen]
  split
  · congr 1
    apply List.ext_getElem?
    intro i
    rw [List.getElem?_take, List.getElem?_take]
    split
    · rw [List.getElem?_drop, List.getElem?_drop]
      exact h (off + i) (by omega) (by omega)
    · rfl
  · rfl

/-- A range that was written reads as what was written. -/
theorem read?_write?_same (h : write? block off bs = some block') :
    read? block' off bs.length = some bs := by
  have hlen := length_write? h
  have hget := getElem?_write? h
  have hle : off + bs.length ≤ block.length := by
    unfold write? at h
    split at h
    · assumption
    · cases h
  rw [read?, if_pos (by omega)]
  congr 1
  apply List.ext_getElem?
  intro i
  rw [List.getElem?_take]
  split
  · rw [List.getElem?_drop, hget, if_pos (by omega)]
    congr 1
    omega
  · exact (List.getElem?_eq_none (by omega)).symm

/-- A range that is disjoint from what was written reads as before. -/
theorem read?_write?_disjoint (h : write? block off bs = some block') (off' n : Nat)
    (hdisj : off + bs.length ≤ off' ∨ off' + n ≤ off) :
    read? block' off' n = read? block off' n := by
  refine read?_congr (length_write? h) fun i hlo hhi => ?_
  rw [getElem?_write? h, if_neg (by omega)]

/-! ### Words -/

/-- The lowest `n` bytes of a number, the lowest one first. -/
def toLE : Nat → Nat → List UInt8
  | 0, _ => []
  | n + 1, v => UInt8.ofNat v :: toLE n (v / 256)

/-- The number that the bytes encode. -/
def ofLE : List UInt8 → Nat
  | [] => 0
  | b :: bs => b.toNat + 256 * ofLE bs

@[simp] theorem length_toLE (n v : Nat) : (toLE n v).length = n := by
  induction n generalizing v with
  | zero => rfl
  | succ n ih => rw [toLE, List.length_cons, ih]

/-- The lowest `n` bytes are the number modulo `256 ^ n`. -/
theorem ofLE_toLE (n v : Nat) : ofLE (toLE n v) = v % 256 ^ n := by
  induction n generalizing v with
  | zero => rw [Nat.pow_zero, Nat.mod_one]; rfl
  | succ n ih =>
    rw [toLE, ofLE, ih, Nat.pow_succ', Nat.mod_mul]
    rfl

/-- Loads a word of `8 * n` bits. -/
def load? (n : Nat) (block : List UInt8) (off : Nat) : Option (BitVec (8 * n)) :=
  (read? block off n).map fun bs => BitVec.ofNat (8 * n) (ofLE bs)

/-- Stores a word of `8 * n` bits. -/
def store? (n : Nat) (block : List UInt8) (off : Nat) (v : BitVec (8 * n)) :
    Option (List UInt8) := write? block off (toLE n v.toNat)

variable {n m : Nat} {v : BitVec (8 * n)}

/-- A load in the block succeeds. -/
theorem exists_load? (h : off + n ≤ block.length) : ∃ v, load? n block off = some v :=
  ⟨_, by rw [load?, read?, if_pos h]; rfl⟩

/-- A store in the block succeeds. -/
theorem exists_store? (h : off + n ≤ block.length) (v : BitVec (8 * n)) :
    ∃ block', store? n block off v = some block' :=
  exists_write? (by rwa [length_toLE])

theorem length_store? (h : store? n block off v = some block') :
    block'.length = block.length := length_write? h

/-- A store changes no byte outside its word. -/
theorem getElem?_store?_outside (h : store? n block off v = some block') {i : Nat}
    (hi : i < off ∨ off + n ≤ i) : block'[i]? = block[i]? := by
  rw [getElem?_write? h, if_neg (by rw [length_toLE]; omega)]

/-- A word that was stored is loaded again, bit for bit. -/
theorem load?_store?_same (h : store? n block off v = some block') :
    load? n block' off = some v := by
  have hread := read?_write?_same h
  rw [length_toLE] at hread
  have hlt : v.toNat < 256 ^ n := by
    have := v.isLt
    rwa [Nat.pow_mul] at this
  rw [load?, hread, Option.map_some, ofLE_toLE, Nat.mod_eq_of_lt hlt, BitVec.ofNat_toNat,
    BitVec.setWidth_eq]

/-- A store leaves disjoint words alone. -/
theorem load?_store?_disjoint (h : store? n block off v = some block') {off' : Nat}
    (hdisj : off + n ≤ off' ∨ off' + m ≤ off) : load? m block' off' = load? m block off' := by
  have hread := read?_write?_disjoint h off' m (by rwa [length_toLE])
  rw [load?, load?, hread]

end Support.Bytes
