/-
UTF-8: the bytes of a text, and the text of any bytes.

Decoding never fails.  Bytes that are no character become U+FFFD, one for each
longest run of bytes that could still have become a character.

Main definitions:
* `Utf8.encode` — the bytes of a text;
* `Utf8.Pending` — what may follow the bytes of an unfinished character;
* `Utf8.decode` — the text of any bytes.
-/
import AsmCatalog.Text.Basic

namespace AsmCatalog

/-- Stored bytes. -/
abbrev Bytes := List UInt8

namespace Utf8

/-- The bytes of a text. -/
def encode (text : Text) : Bytes := text.flatMap String.utf8EncodeChar

/-- What stands for bytes that are no character. -/
def replacement : Char := '\uFFFD'

/-- An unfinished character: the bits read so far, the number of bytes that are
missing, and the range in which the next of them must lie. -/
structure Pending where
  bits : Nat
  missing : Nat
  low : UInt8
  high : UInt8

/-- What a first byte gives: a character at once, or the start of one. -/
inductive Lead where
  | finished (c : Char)
  | started (p : Pending)

/-- The reading of a first byte.  The ranges of the second byte shut out forms that
are longer than needed, surrogates, and values above U+10FFFF. -/
def lead (b : UInt8) : Lead :=
  let n := b.toNat
  if n < 0x80 then .finished (Char.ofNat n)
  else if n < 0xC2 then .finished replacement
  else if n < 0xE0 then .started ⟨n - 0xC0, 1, 0x80, 0xBF⟩
  else if n = 0xE0 then .started ⟨0, 2, 0xA0, 0xBF⟩
  else if n = 0xED then .started ⟨0xD, 2, 0x80, 0x9F⟩
  else if n < 0xF0 then .started ⟨n - 0xE0, 2, 0x80, 0xBF⟩
  else if n = 0xF0 then .started ⟨0, 3, 0x90, 0xBF⟩
  else if n < 0xF4 then .started ⟨n - 0xF0, 3, 0x80, 0xBF⟩
  else if n = 0xF4 then .started ⟨4, 3, 0x80, 0x8F⟩
  else .finished replacement

/-- Whether `b` may be the next byte of the character. -/
def Pending.accepts (p : Pending) (b : UInt8) : Bool := p.low ≤ b && b ≤ p.high

/-- The bits with those of a further byte. -/
def Pending.extended (p : Pending) (b : UInt8) : Nat := p.bits * 64 + (b.toNat - 0x80)

/-- The text of the bytes that follow an unfinished character, or none. -/
def decodeAfter : Option Pending → Bytes → Text
  | none, [] => []
  | some _, [] => [replacement]
  | none, b :: rest =>
    match lead b with
    | .finished c => c :: decodeAfter none rest
    | .started p => decodeAfter (some p) rest
  | some p, b :: rest =>
    if p.accepts b then
      if p.missing ≤ 1 then Char.ofNat (p.extended b) :: decodeAfter none rest
      else decodeAfter (some ⟨p.extended b, p.missing - 1, 0x80, 0xBF⟩) rest
    else
      match lead b with
      | .finished c => replacement :: c :: decodeAfter none rest
      | .started q => replacement :: decodeAfter (some q) rest

/-- The text of any bytes. -/
def decode (bytes : Bytes) : Text := decodeAfter none bytes

/-- A byte that does not fit breaks off the unfinished character. -/
theorem decodeAfter_of_rejected {p : Pending} {b : UInt8} (h : p.accepts b = false)
    (rest : Bytes) :
    decodeAfter (some p) (b :: rest) = replacement :: decodeAfter none (b :: rest) := by
  rw [decodeAfter, decodeAfter, if_neg (by rw [h]; exact Bool.false_ne_true)]
  cases lead b <;> rfl

@[simp] theorem decode_nil : decode [] = [] := rfl

@[simp] theorem encode_nil : encode [] = [] := rfl

theorem encode_cons (c : Char) (text : Text) :
    encode (c :: text) = String.utf8EncodeChar c ++ encode text := List.flatMap_cons

@[simp] theorem encode_append (a b : Text) : encode (a ++ b) = encode a ++ encode b := by
  simp [encode]

end Utf8

end AsmCatalog
