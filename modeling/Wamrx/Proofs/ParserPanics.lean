import Wamrx.Proofs.SectionWalks

/-!
# `Wamrx.Proofs.ParserPanics`: the memory-type parser does not panic

Every read of the parser either fails with `None` or moves the cursor forward and keeps it
inside the buffer (`readLebU32_advances`). So no index is out of bounds, no cursor overflows, and
the fuel is enough: the parser returns `None`, or it finds a section walk
(`parseMemoryType_ne_panic`).
-/

set_option autoImplicit false

namespace Wamrx.Proofs

/-- A length that a slice can have fits `usize`. -/
theorem lt_two_pow_of_le_isizeMax {usizeBits n : Nat} (h : n ≤ isizeMax usizeBits) :
    n < 2 ^ usizeBits := by
  have hle : 2 ^ (usizeBits - 1) ≤ 2 ^ usizeBits :=
    Nat.pow_le_pow_right (by omega) (Nat.sub_le _ _)
  have hpos := Nat.two_pow_pos (usizeBits - 1)
  unfold isizeMax at h
  omega

/-- The outcomes of a read at a cursor: `None`, or a value and a later cursor in the buffer. -/
def Advances {α : Type} (buf : List UInt8) (pos : Nat) (r : Parse (α × Nat)) : Prop :=
  r = .none ∨ ∃ v pos', r = .some (v, pos') ∧ pos < pos' ∧ pos' ≤ buf.length

/-- `read_leb_u32` returns `None`, or a number and a later cursor in the buffer. -/
theorem readLebU32_advances {usizeBits : Nat} {buf : List UInt8}
    (hsize : buf.length < 2 ^ usizeBits) (pos : Nat) :
    Advances buf pos (readLebU32 usizeBits buf pos) := by
  rcases readLebU32_cases hsize pos with hnone | ⟨n, rest, hdrop, hread⟩
  · exact Or.inl hnone
  · have hpos := n.encodes.length_pos
    have hlen := congrArg List.length hdrop
    simp only [List.length_drop, List.length_append] at hlen
    exact Or.inr ⟨_, _, hread, by omega, by omega⟩

/-- `parse_memory_type` does not panic on any slice. -/
theorem parseMemoryType_ne_panic {usizeBits : Nat} {bytes : List UInt8}
    (hsize : bytes.length < 2 ^ usizeBits) (p : Panic) :
    parseMemoryType usizeBits bytes ≠ .panic p := by
  rcases parseMemoryType_cases hsize with hnone | ⟨w, rfl⟩
  · rw [hnone]
    rintro ⟨⟩
  · rw [parseMemoryType_of_walk w hsize]
    rintro ⟨⟩

end Wamrx.Proofs
