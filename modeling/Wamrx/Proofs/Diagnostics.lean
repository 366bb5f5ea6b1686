import Wamrx.Util
import Mathlib.Data.List.Basic
import Mathlib.Tactic.IntervalCases

/-!
# `Wamrx.Proofs.Diagnostics`: the texts of errors

* `lossy_encode`: the lossy conversion gives a valid text back.
* `lossy_take`: of a text that was cut at some byte, all whole characters are given back, and
  one replacement character stands for the one that was cut, if any.
* `message_reported`: so a message of WAMR arrives through the error buffer, or as much of it as
  fits there.
-/

set_option autoImplicit false

namespace Wamrx.Proofs

/-! ### One character -/

theorem toNat_ofNat_byte {k : Nat} (hk : k < 256) : (UInt8.ofNat k).toNat = k :=
  UInt8.toNat_ofNat_of_lt' hk

/-- The lead byte of a character of one byte. -/
theorem utf8Lead_one {k : Nat} (hk : k < 0x80) :
    utf8Lead (UInt8.ofNat k) = some (0, 0x80, 0xBF, k) := by
  have hlt : UInt8.ofNat k < 0x80 := by
    rw [UInt8.lt_iff_toNat_lt, toNat_ofNat_byte (by omega)]
    exact hk
  rw [utf8Lead, if_pos hlt, toNat_ofNat_byte (by omega)]

theorem utf8Lead_two {q : Nat} (hlo : 2 ≤ q) (hhi : q < 32) :
    utf8Lead (UInt8.ofNat (q + 0xc0)) = some (1, 0x80, 0xBF, q) := by
  interval_cases q <;> rfl

theorem utf8Lead_three {q : Nat} (hq : q < 16) :
    utf8Lead (UInt8.ofNat (q + 0xe0))
      = some (2, if q = 0 then 0xA0 else 0x80, if q = 13 then 0x9F else 0xBF, q) := by
  interval_cases q <;> rfl

theorem utf8Lead_four {q : Nat} (hq : q ≤ 4) :
    utf8Lead (UInt8.ofNat (q + 0xf0))
      = some (3, if q = 0 then 0x90 else 0x80, if q = 4 then 0x8F else 0xBF, q) := by
  interval_cases q <;> rfl

/-- A byte in the range that is allowed here. -/
theorem utf8Tail_step {n code k : Nat} {lo hi : UInt8} (hk : k < 256) (hlo : lo.toNat ≤ k)
    (hhi : k ≤ hi.toNat) (rest : List UInt8) :
    utf8Tail (n + 1) lo hi code (UInt8.ofNat k :: rest)
      = utf8Tail n 0x80 0xBF (code * 64 + k % 64) rest := by
  have hrange : lo ≤ UInt8.ofNat k ∧ UInt8.ofNat k ≤ hi := by
    rw [UInt8.le_iff_toNat_le, UInt8.le_iff_toNat_le, toNat_ofNat_byte hk]
    exact ⟨hlo, hhi⟩
  rw [utf8Tail, if_pos hrange, toNat_ofNat_byte hk]

/-- A byte that may follow any other one carries six bits. -/
theorem utf8Tail_trail {n code k : Nat} (hk : k < 64) (rest : List UInt8) :
    utf8Tail (n + 1) 0x80 0xBF code (UInt8.ofNat (k + 0x80) :: rest)
      = utf8Tail n 0x80 0xBF (code * 64 + k) rest := by
  rw [utf8Tail_step (by omega) (show 0x80 ≤ _ by omega) (show _ ≤ 0xBF by omega),
    show (k + 0x80) % 64 = k by omega]

/-- The bytes of a character: what the lead byte says, and that the others complete it. -/
structure Encoding (c : Char) where
  lead : UInt8
  tail : List UInt8
  lo : UInt8
  hi : UInt8
  code : Nat
  bytes_eq : String.utf8EncodeChar c = lead :: tail
  lead_eq : utf8Lead lead = some (tail.length, lo, hi, code)
  tail_eq : ∀ rest, utf8Tail tail.length lo hi code (tail ++ rest) = (some c.toNat, rest)

/-- The encodings by their length. The ranges of the second byte leave out exactly the overlong
forms, the surrogates, and what is past the last character. -/
theorem exists_encoding (c : Char) : Nonempty (Encoding c) := by
  have hvalid : c.val.toNat < 0xD800 ∨ 0xDFFF < c.val.toNat ∧ c.val.toNat < 0x110000 := c.valid
  have hnat : c.toNat = c.val.toNat := rfl
  have hbytes : String.utf8EncodeChar c = _ := String.utf8EncodeChar.eq_1 c
  generalize c.val.toNat = v at hvalid hnat hbytes
  by_cases hone : v ≤ 0x7f
  · rw [if_pos hone] at hbytes
    exact ⟨⟨_, _, _, _, _, hbytes, utf8Lead_one (by omega), fun rest => by rw [hnat]; rfl⟩⟩
  rw [if_neg hone] at hbytes
  by_cases htwo : v ≤ 0x7ff
  · rw [if_pos htwo] at hbytes
    refine ⟨⟨_, _, _, _, _, hbytes, utf8Lead_two (by omega) (by omega), fun rest => ?_⟩⟩
    refine (utf8Tail_trail (by omega) rest).trans ?_
    show (some (v / 64 % 32 * 64 + v % 64), rest) = _
    rw [hnat, show v / 64 % 32 * 64 + v % 64 = v by omega]
  rw [if_neg htwo] at hbytes
  by_cases hthree : v ≤ 0xffff
  · rw [if_pos hthree] at hbytes
    refine ⟨⟨_, _, _, _, _, hbytes, utf8Lead_three (by omega), fun rest => ?_⟩⟩
    refine (utf8Tail_step (by omega) ?_ ?_ _).trans ?_
    · split
      · show 0xA0 ≤ _
        omega
      · show 0x80 ≤ _
        omega
    · split
      · show _ ≤ 0x9F
        omega
      · show _ ≤ 0xBF
        omega
    refine (utf8Tail_trail (by omega) rest).trans ?_
    show (some ((v / 4096 % 16 * 64 + (v / 64 % 64 + 0x80) % 64) * 64 + v % 64), rest) = _
    rw [hnat, show (v / 4096 % 16 * 64 + (v / 64 % 64 + 0x80) % 64) * 64 + v % 64 = v by omega]
  · rw [if_neg hthree] at hbytes
    refine ⟨⟨_, _, _, _, _, hbytes, utf8Lead_four (by omega), fun rest => ?_⟩⟩
    refine (utf8Tail_step (by omega) ?_ ?_ _).trans ?_
    · split
      · show 0x90 ≤ _
        omega
      · show 0x80 ≤ _
        omega
    · split
      · show _ ≤ 0x8F
        omega
      · show _ ≤ 0xBF
        omega
    refine (utf8Tail_trail (by omega) _).trans ((utf8Tail_trail (by omega) rest).trans ?_)
    show (some (((v / 262144 % 8 * 64 + (v / 4096 % 64 + 0x80) % 64) * 64 + v / 64 % 64) * 64
      + v % 64), rest) = _
    rw [hnat, show ((v / 262144 % 8 * 64 + (v / 4096 % 64 + 0x80) % 64) * 64 + v / 64 % 64) * 64
      + v % 64 = v by omega]

/-- The bytes after the lead byte, cut short. -/
theorem utf8Tail_take {n code : Nat} {lo hi : UInt8} {tail : List UInt8} {x : Nat}
    (h : utf8Tail n lo hi code tail = (some x, [])) {m : Nat} (hm : m < n) :
    utf8Tail n lo hi code (tail.take m) = (none, []) := by
  induction n generalizing lo hi code tail m with
  | zero => omega
  | succ n ih =>
    cases tail with
    | nil => cases h
    | cons b tail =>
      rw [utf8Tail] at h
      split at h
      · rename_i hrange
        cases m with
        | zero => rfl
        | succ m =>
          rw [List.take_succ_cons, utf8Tail, if_pos hrange]
          exact ih h (by omega)
      · cases h

/-! ### Texts -/

/-- The bytes of a text. -/
def encode (text : List Char) : List UInt8 := text.flatMap String.utf8EncodeChar

/-- The characters that the lossy conversion finds. -/
def lossy (bytes : List UInt8) : List Char := lossyChars bytes.length bytes

/-- What follows the bytes of a character is not longer than what was there. -/
theorem length_utf8Tail (n : Nat) (lo hi : UInt8) (code : Nat) (bytes : List UInt8) :
    (utf8Tail n lo hi code bytes).2.length ≤ bytes.length := by
  induction n generalizing lo hi code bytes with
  | zero => exact Nat.le_refl _
  | succ n ih =>
    cases bytes with
    | nil => exact Nat.le_refl _
    | cons b rest =>
      rw [utf8Tail]
      split
      · exact Nat.le_succ_of_le (ih _ _ _ rest)
      · exact Nat.le_refl _

/-- There is enough fuel. -/
theorem lossyChars_fuel {fuel : Nat} {bytes : List UInt8} (h : bytes.length ≤ fuel) :
    lossyChars fuel bytes = lossy bytes := by
  have hany : ∀ (fuel fuel' : Nat) (bytes : List UInt8), bytes.length ≤ fuel →
      bytes.length ≤ fuel' → lossyChars fuel bytes = lossyChars fuel' bytes := by
    intro fuel
    induction fuel with
    | zero =>
      intro fuel' bytes hle _
      rw [List.eq_nil_of_length_eq_zero (Nat.le_zero.mp hle)]
      cases fuel' <;> rfl
    | succ fuel ih =>
      intro fuel' bytes hle hle'
      cases bytes with
      | nil => cases fuel' <;> rfl
      | cons b rest =>
        cases fuel' with
        | zero => cases hle'
        | succ fuel' =>
          rw [List.length_cons] at hle hle'
          simp only [lossyChars]
          split
          · rw [ih fuel' rest (by omega) (by omega)]
          · rename_i n lo hi code _
            have hlen := length_utf8Tail n lo hi code rest
            split <;> rename_i heq <;> rw [heq] at hlen <;>
              rw [ih fuel' _ (Nat.le_trans hlen (by omega)) (Nat.le_trans hlen (by omega))]
  exact hany fuel bytes.length bytes h (Nat.le_refl _)

theorem lossy_nil : lossy [] = [] := rfl

/-- A whole character in front. -/
theorem lossy_utf8EncodeChar (c : Char) (rest : List UInt8) :
    lossy (String.utf8EncodeChar c ++ rest) = c :: lossy rest := by
  obtain ⟨e⟩ := exists_encoding c
  rw [e.bytes_eq, List.cons_append, lossy, List.length_cons, lossyChars, e.lead_eq]
  simp only [e.tail_eq]
  rw [Char.ofNat_toNat, lossyChars_fuel (by simp)]

/-- The lossy conversion gives a valid text back, and it goes on behind it. -/
theorem lossy_encode (text : List Char) (rest : List UInt8) :
    lossy (encode text ++ rest) = text ++ lossy rest := by
  induction text with
  | nil => rfl
  | cons c text ih =>
    rw [encode, List.flatMap_cons, List.append_assoc, lossy_utf8EncodeChar, List.cons_append]
    exact congrArg (c :: ·) ih

/-- A character that was cut is one replacement character, unless nothing of it is left. -/
theorem lossy_take_utf8EncodeChar (c : Char) {n : Nat}
    (hn : n < (String.utf8EncodeChar c).length) :
    lossy ((String.utf8EncodeChar c).take n) = if 0 = n then [] else ['\uFFFD'] := by
  obtain ⟨e⟩ := exists_encoding c
  rw [e.bytes_eq] at hn ⊢
  cases n with
  | zero => rfl
  | succ n =>
    rw [List.length_cons] at hn
    have htail := e.tail_eq []
    rw [List.append_nil] at htail
    rw [List.take_succ_cons, lossy, List.length_cons, lossyChars, e.lead_eq]
    simp only [utf8Tail_take htail (show n < e.tail.length by omega)]
    rw [lossyChars_fuel (by simp), lossy_nil, if_neg (by omega)]

theorem encode_cons (c : Char) (text : List Char) :
    encode (c :: text) = String.utf8EncodeChar c ++ encode text := List.flatMap_cons

/-- A text that was cut at some byte: the characters that are whole are given back, as many as fit,
and one replacement character stands for the next one if a part of it is left. -/
theorem lossy_take (text : List Char) (n : Nat) (hn : n < (encode text).length) :
    ∃ k, k < text.length ∧ (encode (text.take k)).length ≤ n ∧
      n < (encode (text.take (k + 1))).length ∧
      lossy ((encode text).take n)
        = text.take k ++ if (encode (text.take k)).length = n then [] else ['\uFFFD'] := by
  induction text generalizing n with
  | nil => cases hn
  | cons c text ih =>
    rw [encode_cons, List.length_append] at hn
    rw [encode_cons, List.take_append]
    rcases Nat.lt_or_ge n (String.utf8EncodeChar c).length with hcut | hwhole
    · -- The first character is cut.
      refine ⟨0, Nat.succ_pos _, Nat.zero_le n, ?_, ?_⟩
      · rw [List.take_succ_cons, List.take_zero, encode_cons, List.length_append]
        omega
      · rw [show n - (String.utf8EncodeChar c).length = 0 by omega, List.take_zero,
          List.append_nil]
        exact lossy_take_utf8EncodeChar c hcut
    · obtain ⟨k, hk, hle, hlt, hlossy⟩ := ih (n - (String.utf8EncodeChar c).length) (by omega)
      refine ⟨k + 1, Nat.succ_lt_succ hk, ?_, ?_, ?_⟩
      · rw [List.take_succ_cons, encode_cons, List.length_append]
        omega
      · rw [List.take_succ_cons, encode_cons, List.length_append]
        omega
      · rw [List.take_of_length_le hwhole, lossy_utf8EncodeChar, hlossy, List.take_succ_cons,
          encode_cons, List.length_append, List.cons_append]
        -- Both texts end at the same byte.
        have hsame : (String.utf8EncodeChar c).length + (encode (text.take k)).length = n ↔
            (encode (text.take k)).length = n - (String.utf8EncodeChar c).length := by omega
        simp only [hsame]

/-! ### Messages -/

/-- Only the NUL character has a NUL byte in its encoding. -/
theorem utf8EncodeChar_ne_zero {c : Char} (hc : c ≠ '\x00') :
    ∀ b ∈ String.utf8EncodeChar c, b ≠ 0 := by
  have hval : c.val.toNat ≠ 0 := fun hzero => hc (Char.ext (UInt32.toNat_inj.mp hzero))
  have hbyte : ∀ {k : Nat}, 0 < k → k < 256 → UInt8.ofNat k ≠ 0 := by
    intro k hpos hlt hzero
    have := congrArg UInt8.toNat hzero
    rw [toNat_ofNat_byte hlt] at this
    exact Nat.ne_of_gt hpos this
  rw [String.utf8EncodeChar]
  split
  · simp only [List.forall_mem_cons, List.not_mem_nil, false_imp_iff, implies_true, and_true]
    exact hbyte (by omega) (by omega)
  split
  · simp only [List.forall_mem_cons, List.not_mem_nil, false_imp_iff, implies_true, and_true]
    exact ⟨hbyte (by omega) (by omega), hbyte (by omega) (by omega)⟩
  split
  · simp only [List.forall_mem_cons, List.not_mem_nil, false_imp_iff, implies_true, and_true]
    exact ⟨hbyte (by omega) (by omega), hbyte (by omega) (by omega),
      hbyte (by omega) (by omega)⟩
  · simp only [List.forall_mem_cons, List.not_mem_nil, false_imp_iff, implies_true, and_true]
    exact ⟨hbyte (by omega) (by omega), hbyte (by omega) (by omega),
      hbyte (by omega) (by omega), hbyte (by omega) (by omega)⟩

/-- The call leaves `text` in the error buffer as WAMR does: as much of it as fits in front of the
NUL that ends it. Nothing is promised about the bytes behind the NUL. -/
def WritesMessage {T : Type} (f : List UInt8 → UInt32 → T × List UInt8) (text : Name) : Prop :=
  ∃ behind, (f (List.replicate errorBufSize 0) (UInt32.ofNat errorBufSize)).2
    = text.take (errorBufSize - 1) ++ 0 :: behind

/-- `snprintf(buf, size, "%s", text)` writes a message in this way. -/
theorem snprintf_writes {T : Type} (ret : T) (text : Name) :
    WritesMessage (fun buf size => (ret, snprintf text buf size)) text := by
  refine ⟨(List.replicate errorBufSize 0).drop (text.take (errorBufSize - 1) ++ [0]).length, ?_⟩
  show snprintf text (List.replicate errorBufSize 0) (UInt32.ofNat errorBufSize) = _
  rw [snprintf, if_neg (by decide), show (UInt32.ofNat errorBufSize).toNat = errorBufSize from rfl]
  exact List.append_assoc _ [0] _

/-- What is read from the error buffer: the part of the message that was written. -/
theorem withErrorBuf_message {T : Type} {f : List UInt8 → UInt32 → T × List UInt8}
    {text : List Char} (hnul : '\x00' ∉ text) (hwrites : WritesMessage f (encode text)) :
    (withErrorBuf f).2 = String.ofList (lossy ((encode text).take (errorBufSize - 1))) := by
  obtain ⟨behind, hbuf⟩ := hwrites
  have hbytes : ∀ b ∈ (encode text).take (errorBufSize - 1), decide (b ≠ 0) = true := by
    intro b hb
    obtain ⟨c, hc, hb⟩ := List.mem_flatMap.mp (List.mem_of_mem_take hb)
    exact decide_eq_true (utf8EncodeChar_ne_zero (fun heq => hnul (heq ▸ hc)) b hb)
  show cstrBufToString (f (List.replicate errorBufSize 0)
    (UInt32.ofNat (List.replicate errorBufSize (0 : UInt8)).length)).2 = _
  rw [List.length_replicate, hbuf, cstrBufToString, List.takeWhile_append_of_pos hbytes,
    List.takeWhile_cons_of_neg (by decide), List.append_nil]
  rfl

/-- Every message of WAMR that is valid UTF-8 reaches the error as it is, when it fits the buffer
with its NUL. A longer one keeps all whole characters that fit, and one replacement character
stands for the next one if that was cut: if the whole ones leave a byte of the buffer in front of
the NUL. Messages that come as a pointer are not cut. -/
theorem message_reported {T : Type} (f : List UInt8 → UInt32 → T × List UInt8) (text : List Char)
    (hnul : '\x00' ∉ text) (hwrites : WritesMessage f (encode text)) :
    ((encode text).length < errorBufSize → (withErrorBuf f).2 = String.ofList text) ∧
      (errorBufSize ≤ (encode text).length → ∃ k, k < text.length ∧
        (encode (text.take k)).length < errorBufSize ∧
        errorBufSize ≤ (encode (text.take (k + 1))).length ∧
        (withErrorBuf f).2 = String.ofList (text.take k ++
          if (encode (text.take k)).length + 1 = errorBufSize then [] else ['\uFFFD'])) ∧
      cstrPtrToString (some (encode text)) = String.ofList text := by
  have hwhole : lossy (encode text) = text := by
    have := lossy_encode text []
    rwa [List.append_nil, lossy_nil, List.append_nil] at this
  have hpos : 0 < errorBufSize := Nat.succ_pos 255
  rw [withErrorBuf_message hnul hwrites]
  refine ⟨fun hfits => ?_, fun hlong => ?_, congrArg String.ofList hwhole⟩
  · rw [List.take_of_length_le (by omega), hwhole]
  · obtain ⟨k, hk, hle, hlt, hlossy⟩ := lossy_take text (errorBufSize - 1) (by omega)
    refine ⟨k, hk, by omega, by omega, ?_⟩
    have hfull : (encode (text.take k)).length + 1 = errorBufSize ↔
        (encode (text.take k)).length = errorBufSize - 1 := by omega
    simp only [hlossy, hfull]

/-- Characters of one to four bytes, written by `snprintf(buf, size, "%s", text)`. -/
def mixedText : List Char := ['W', 'é', '€', '𝄞']

/-- A letter, and characters of three bytes. -/
def euros (n : Nat) : List Char := 'W' :: List.replicate n '€'

theorem length_encode_euros (n : Nat) : (encode (euros n)).length = 3 * n + 1 := by
  induction n with
  | zero => rfl
  | succ n ih =>
    have hsize : (String.utf8EncodeChar '€').length = 3 := rfl
    simp only [euros, encode_cons, List.length_append, List.replicate_succ] at ih ⊢
    omega

/-- A short text arrives as it is. Of a long one, the letter and 84 characters are whole, and two
bytes are left of the next one. -/
theorem message_reported_mixed :
    let report := fun text => (withErrorBuf fun buf size => ((), snprintf (encode text) buf size)).2
    report mixedText = "Wé€𝄞" ∧
      report (euros 100) = String.ofList (euros 84 ++ ['\uFFFD']) := by
  intro report
  have hreport := fun text hnul => message_reported
    (fun buf size => ((), snprintf (encode text) buf size)) text hnul (snprintf_writes () _)
  refine ⟨(hreport mixedText (by decide)).1 (by decide), ?_⟩
  obtain ⟨k, -, hlt, hle, hmessage⟩ := (hreport (euros 100) (by decide)).2.1
    (by rw [length_encode_euros]; decide)
  have htake : ∀ k, (euros 100).take (k + 1) = euros (min k 100) := fun k =>
    congrArg ('W' :: ·) List.take_replicate
  cases k with
  | zero => exact absurd hle (by decide)
  | succ k =>
    rw [htake, length_encode_euros, errorBufSize] at hlt hle
    obtain rfl : k = 84 := by omega
    rw [htake, length_encode_euros] at hmessage
    exact hmessage

end Wamrx.Proofs
