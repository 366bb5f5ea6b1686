import Wamrx.ParserSteps
import Wamrx.Proofs.ParserPanics

/-!
# `Wamrx.Proofs.ParserTermination`: the loops of the parser end

The variant of the section loop is its cursor: an iteration that goes on moves it forward and
keeps it inside the buffer (`sectionBody_next`). The variant of the loop of `read_leb_u32` is the
shift, which stays below 32 (`lebBody_next`). Both hold in every state, so nothing has to be known
about the bytes.

`parser_ends` collects what follows for a slice: no panic, and bounds on both loops.
-/

set_option autoImplicit false

namespace Wamrx.Proofs

open Support

variable {usizeBits : Nat} {buf : List UInt8}

/-! ### Iterations -/

/-- An iteration goes on only behind a computation that returns a value. -/
theorem toLoopStep_bind_eq_next {α σ ρ : Type} {x : Parse α} {f : α → Parse (LoopStep σ ρ)}
    {s : σ} (h : (x >>= f).toLoopStep = .next s) :
    ∃ a, x = .some a ∧ (f a).toLoopStep = .next s := by
  cases x with
  | some a => exact ⟨a, rfl, h⟩
  | none => cases h
  | panic p => cases h

/-- `None` and panics leave the function, from whatever iteration. -/
theorem resume_toLoopStep_bind {α σ ρ : Type} (x : Parse α) (f : α → Parse (LoopStep σ ρ))
    (loop : σ → Parse ρ) :
    (x >>= f).toLoopStep.resume loop = x >>= fun a => (f a).toLoopStep.resume loop := by
  cases x <;> rfl

/-- `readLebLoop` runs `lebBody`. -/
theorem unrolls_readLebLoop : Unrolls (lebBody usizeBits buf)
    fun fuel s => readLebLoop usizeBits buf fuel s.pos s.result s.shift := by
  intro fuel s
  simp only [readLebLoop, lebBody, resume_toLoopStep_bind]
  refine bind_congr fun byte => bind_congr fun pos => bind_congr fun bits => ?_
  by_cases hlast : byte &&& 0x80 = 0
  · rw [if_pos hlast, if_pos hlast]
    rfl
  · rw [if_neg hlast, if_neg hlast, resume_toLoopStep_bind]
    refine bind_congr fun shift => ?_
    by_cases hshift : shift ≥ 32
    · rw [if_pos hshift, if_pos hshift]
      rfl
    · rw [if_neg hshift, if_neg hshift]
      rfl

/-- `sectionLoop` runs `sectionBody`. -/
theorem unrolls_sectionLoop : Unrolls (sectionBody usizeBits buf) (sectionLoop usizeBits buf) := by
  intro fuel pos
  rw [sectionLoop, sectionBody]
  by_cases hpos : pos < buf.length
  · rw [if_pos hpos, if_pos hpos]
    simp only [resume_toLoopStep_bind]
    refine bind_congr fun id => bind_congr fun pos => bind_congr fun r => bind_congr fun e => ?_
    by_cases hend : e > buf.length
    · rw [if_pos hend, if_pos hend]
      rfl
    by_cases hid : id = 5
    · rw [if_neg hend, if_neg hend, if_pos hid, if_pos hid, resume_toLoopStep_bind]
      cases readLimits usizeBits buf r.2 <;> rfl
    · rw [if_neg hend, if_neg hend, if_neg hid, if_neg hid]
      rfl
  · rw [if_neg hpos, if_neg hpos]
    rfl

/-! ### Variants -/

theorem addAssign_eq_some {bits a b c : Nat} (h : addAssign bits a b = .some c) : c = a + b := by
  unfold addAssign at h
  split at h
  · cases h
    rfl
  · cases h

theorem checkedAdd_eq_some {bits a b c : Nat} (h : checkedAdd bits a b = .some c) :
    c = a + b := by
  unfold checkedAdd at h
  split at h
  · cases h
    rfl
  · cases h

/-- An iteration of `read_leb_u32` that goes on adds 7 to the shift, and the shift stays below
32. -/
theorem lebBody_next {s s' : LebState} (h : lebBody usizeBits buf s = .next s') :
    s.shift + 7 = s'.shift ∧ s'.shift < 32 := by
  unfold lebBody at h
  obtain ⟨byte, -, h₁⟩ := toLoopStep_bind_eq_next h
  obtain ⟨pos, -, h₂⟩ := toLoopStep_bind_eq_next h₁
  obtain ⟨bits, -, h₃⟩ := toLoopStep_bind_eq_next h₂
  split at h₃
  · cases h₃
  · obtain ⟨shift, hshift, h₄⟩ := toLoopStep_bind_eq_next h₃
    obtain rfl := addAssign_eq_some hshift
    split at h₄
    · cases h₄
    · cases h₄
      exact ⟨rfl, by show s.shift + 7 < 32; omega⟩

/-- An iteration of the section loop that goes on moves the cursor forward, inside the buffer. -/
theorem sectionBody_next (hsize : buf.length < 2 ^ usizeBits) {pos pos' : Nat}
    (h : sectionBody usizeBits buf pos = .next pos') : pos < pos' ∧ pos' ≤ buf.length := by
  unfold sectionBody at h
  split at h
  swap
  · cases h
  obtain ⟨id, -, h₁⟩ := toLoopStep_bind_eq_next h
  obtain ⟨pos₁, hpos₁, h₂⟩ := toLoopStep_bind_eq_next h₁
  obtain ⟨⟨size, pos₂⟩, hread, h₃⟩ := toLoopStep_bind_eq_next h₂
  obtain ⟨payloadEnd, hend, h₄⟩ := toLoopStep_bind_eq_next h₃
  obtain rfl := addAssign_eq_some hpos₁
  obtain rfl := checkedAdd_eq_some hend
  split at h₄
  · cases h₄
  split at h₄
  · obtain ⟨ty, -, h₅⟩ := toLoopStep_bind_eq_next h₄
    cases h₅
  · cases h₄
    -- The size may be 0: the id and the size field alone move the cursor.
    rcases readLebU32_advances hsize (pos + 1) with hnone | ⟨v, p, hsome, hlt, -⟩
    · rw [hnone] at hread
      cases hread
    · rw [hsome] at hread
      cases hread
      omega

/-! ### The bounds -/

/-- The reader starts with shift 0, so it goes on four times at most, and every shift is one that
`checked_shl` accepts. -/
theorem shift_lt_of_iterates {pos n : Nat} {s : LebState}
    (h : Iterates (lebBody usizeBits buf) n ⟨pos, 0, 0⟩ s) : n < 5 ∧ s.shift < 32 := by
  have hlt : s.shift < 32 :=
    h.inv (fun s => s.shift < 32) (fun _ _ hnext => (lebBody_next hnext).2) (Nat.two_pow_pos 5)
  have hle : 0 + n * 7 ≤ s.shift :=
    h.add_mul_le LebState.shift 7 fun _ _ hnext => Nat.le_of_eq (lebBody_next hnext).1
  exact ⟨by omega, hlt⟩

/-- The section loop starts behind the preamble and goes on once for each byte at most. -/
theorem le_length_of_iterates (hsize : buf.length < 2 ^ usizeBits) {n pos : Nat}
    (h : Iterates (sectionBody usizeBits buf) n 8 pos) : n ≤ buf.length - 8 := by
  have hle := h.mul_le id 1 buf.length fun _ _ hnext => sectionBody_next hsize hnext
  rwa [Nat.mul_one] at hle

/-- The result of the reader is that of the last iteration of its loop. -/
theorem exists_readLebU32 (usizeBits : Nat) (buf : List UInt8) (pos : Nat) :
    ∃ n s, Iterates (lebBody usizeBits buf) n ⟨pos, 0, 0⟩ s ∧
      lebBody usizeBits buf s = .done (readLebU32 usizeBits buf pos) := by
  obtain ⟨n, s, r, hn, hr⟩ := exists_done LebState.shift 7 31 (by decide)
    (fun s s' (hnext : lebBody usizeBits buf s = .next s') => by
      obtain ⟨hshift, hlt⟩ := lebBody_next hnext
      omega) ⟨pos, 0, 0⟩
  have hrun := unrolls_readLebLoop.eq_of_done hn hr (shift_lt_of_iterates hn).1
  refine ⟨n, s, hn, ?_⟩
  rw [hr, ← hrun]
  rfl

/-- The result of the parser is that of the last iteration of the section loop. -/
theorem exists_parseMemoryType (hsize : buf.length < 2 ^ usizeBits) (hlen : 8 ≤ buf.length)
    (hmagic : buf.take 4 = wasmMagic) :
    ∃ n pos, Iterates (sectionBody usizeBits buf) n 8 pos ∧
      sectionBody usizeBits buf pos = .done (parseMemoryType usizeBits buf) := by
  obtain ⟨n, pos, r, hn, hr⟩ := exists_done id 1 buf.length (by decide)
    (fun pos pos' (hnext : sectionBody usizeBits buf pos = .next pos') =>
      sectionBody_next hsize hnext) 8
  have hle := le_length_of_iterates hsize hn
  have hrun := unrolls_sectionLoop.eq_of_done hn hr (show n < buf.length by omega)
  have hhead : ¬ (buf.length < 8 ∨ buf.take 4 ≠ wasmMagic) := by
    simp only [hmagic, ne_eq, not_true_eq_false, or_false]
    omega
  refine ⟨n, pos, hn, ?_⟩
  rw [hr, ← hrun, parseMemoryType_eq, if_neg hhead]

/-- What holds of the two loops on a slice. -/
structure ParserEnds (usizeBits : Nat) (bytes : List UInt8) : Prop where
  parse_ne_panic : ∀ p, parseMemoryType usizeBits bytes ≠ .panic p
  read_ne_panic : ∀ pos p, readLebU32 usizeBits bytes pos ≠ .panic p
  shift_accepted : ∀ pos n s, Iterates (lebBody usizeBits bytes) n ⟨pos, 0, 0⟩ s →
    n < 5 ∧ ∀ x, checkedShl x s.shift ≠ .none
  read_done : ∀ pos, ∃ n s, Iterates (lebBody usizeBits bytes) n ⟨pos, 0, 0⟩ s ∧
    lebBody usizeBits bytes s = .done (readLebU32 usizeBits bytes pos)
  cursor_lt : ∀ pos pos', sectionBody usizeBits bytes pos = .next pos' →
    pos < pos' ∧ pos' ≤ bytes.length
  -- The iterations are counted from 0, and the loop is not reached on fewer than 8 bytes.
  iterations_lt : ∀ n pos, 8 ≤ bytes.length → Iterates (sectionBody usizeBits bytes) n 8 pos →
    n < bytes.length
  parse_done : 8 ≤ bytes.length → bytes.take 4 = wasmMagic →
    ∃ n pos, Iterates (sectionBody usizeBits bytes) n 8 pos ∧
      sectionBody usizeBits bytes pos = .done (parseMemoryType usizeBits bytes)

/-- For every slice, on a host with pointers of any size: the parser and its reader do not panic,
every shift is below 32, every iteration of the section loop moves the cursor forward inside the
slice, and the loop ends before it has had as many iterations as the slice has bytes. -/
theorem parser_ends (usizeBits : Nat) (bytes : List UInt8)
    (hsize : bytes.length ≤ isizeMax usizeBits) : ParserEnds usizeBits bytes := by
  have hsize := lt_two_pow_of_le_isizeMax hsize
  refine ⟨parseMemoryType_ne_panic hsize, fun pos p => ?_, fun pos n s hs => ?_,
    exists_readLebU32 usizeBits bytes, fun _ _ hnext => sectionBody_next hsize hnext,
    fun n pos hlen hn => ?_, exists_parseMemoryType hsize⟩
  · rcases readLebU32_advances hsize pos with hnone | ⟨v, pos', hsome, -, -⟩
    · rw [hnone]
      rintro ⟨⟩
    · rw [hsome]
      rintro ⟨⟩
  · obtain ⟨hn, hshift⟩ := shift_lt_of_iterates hs
    refine ⟨hn, fun x => ?_⟩
    rw [checkedShl, if_pos hshift]
    rintro ⟨⟩
  · have := le_length_of_iterates hsize hn
    omega

/-- An empty section, and one of `2 ^ 32 - 1` bytes that are not there, on a 32-bit host. -/
theorem parser_ends_hugeSection :
    ParserEnds 32 [0, 0x61, 0x73, 0x6d, 1, 0, 0, 0, 0, 0, 1, 0xff, 0xff, 0xff, 0xff, 0x0f] :=
  parser_ends 32 _ (by decide)

end Wamrx.Proofs
