import Wamrx.Value

/-!
# `Wamrx.Util`: texts that come back from WAMR

The helpers of `util.rs`. WAMR hands its diagnostics over as NUL-terminated byte strings, and
the bindings turn them into a `String` with `String::from_utf8_lossy`. `fromUtf8Lossy` follows
the documented behaviour of that function: each maximal prefix of a character that cannot be
completed becomes one U+FFFD.
-/

set_option autoImplicit false

namespace Wamrx

/-- The lead byte of a UTF-8 character: how many bytes follow, the range of the first of them,
and the bits of the lead byte. `none` for a byte that starts no character. -/
def utf8Lead (b : UInt8) : Option (Nat × UInt8 × UInt8 × Nat) :=
  if b < 0x80 then some (0, 0x80, 0xBF, b.toNat)
  else if b < 0xC2 then none
  else if b < 0xE0 then some (1, 0x80, 0xBF, b.toNat % 32)
  -- The ranges leave out the overlong forms and the surrogates.
  else if b = 0xE0 then some (2, 0xA0, 0xBF, 0)
  else if b = 0xED then some (2, 0x80, 0x9F, 13)
  else if b < 0xF0 then some (2, 0x80, 0xBF, b.toNat % 16)
  else if b = 0xF0 then some (3, 0x90, 0xBF, 0)
  else if b < 0xF4 then some (3, 0x80, 0xBF, b.toNat % 8)
  else if b = 0xF4 then some (3, 0x80, 0x8F, 4)
  else none

/-- The bytes after the lead byte, as far as they belong to the character: its code, or `none`
when it is cut short, and the bytes after it. -/
def utf8Tail : Nat → UInt8 → UInt8 → Nat → List UInt8 → Option Nat × List UInt8
  | 0, _, _, code, rest => (some code, rest)
  | _ + 1, _, _, _, [] => (none, [])
  | n + 1, lo, hi, code, b :: rest =>
    -- Only the first byte behind the lead byte has a range of its own.
    if lo ≤ b ∧ b ≤ hi then utf8Tail n 0x80 0xBF (code * 64 + b.toNat % 64) rest
    -- The byte that does not fit may start the next character.
    else (none, b :: rest)

/-- The characters of a byte string. Each round consumes at least one byte, so one unit of
fuel a byte is enough. -/
def lossyChars : Nat → List UInt8 → List Char
  | 0, _ => []
  | _, [] => []
  | fuel + 1, b :: rest =>
    match utf8Lead b with
    | none => '\uFFFD' :: lossyChars fuel rest
    | some (n, lo, hi, code) =>
      match utf8Tail n lo hi code rest with
      | (some code, rest) => Char.ofNat code :: lossyChars fuel rest
      | (none, rest) => '\uFFFD' :: lossyChars fuel rest

/-- `String::from_utf8_lossy`. -/
def fromUtf8Lossy (bytes : List UInt8) : String :=
  String.ofList (lossyChars bytes.length bytes)

/-- `cstr_buf_to_string`: the buffer up to its first NUL. -/
def cstrBufToString (buf : List UInt8) : String :=
  fromUtf8Lossy (buf.takeWhile (· ≠ 0))

/-- `cstr_ptr_to_string`: a null pointer reads as the empty string. -/
def cstrPtrToString : Option Name → String
  | none => ""
  | some text => fromUtf8Lossy text

/-- `ERROR_BUF_SIZE`. -/
def errorBufSize : Nat := 256

/-- `with_error_buf`: runs a call of WAMR with a zeroed buffer and its size, and reads the message
that the call has left there. -/
def withErrorBuf {T : Type} (f : List UInt8 → UInt32 → T × List UInt8) : T × String :=
  let buf := List.replicate errorBufSize 0
  let r := f buf (UInt32.ofNat buf.length)
  (r.1, cstrBufToString r.2)

/-- `snprintf(buf, size, "%s", text)`, with which WAMR writes its messages: as much of the text as
fits, and a NUL. -/
def snprintf (text : Name) (buf : List UInt8) (size : UInt32) : List UInt8 :=
  if size = 0 then buf
  else
    let written := text.take (size.toNat - 1) ++ [0]
    written ++ buf.drop written.length

-- An overlong form is two bytes that start no character, a cut character is one.
example : lossyChars 6 [0x68, 0xC3, 0xA9, 0xC0, 0x80, 0x21] =
    ['h', 'é', '\uFFFD', '\uFFFD', '!'] := by decide
example : lossyChars 4 [0xE2, 0x82, 0x28, 0xF0] = ['\uFFFD', '(', '\uFFFD'] := by decide

end Wamrx
