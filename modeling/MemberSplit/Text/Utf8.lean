import MemberSplit.Text.Basic

/-!
# UTF-8

Encoding of texts as bytes, and decoding of any bytes. Bytes that are not UTF-8 are cut into
maximal starts of a character, each of which reads as one replacement character.
-/

namespace MemberSplit

/-- The contents of a file. -/
abbrev Bytes := List UInt8

namespace Utf8

/-- The bytes of one character. -/
def encodeChar (c : Char) : Bytes :=
  let code := c.toNat
  let tail (unit : Nat) : UInt8 := UInt8.ofNat (0x80 + code / unit % 0x40)
  if code < 0x80 then [UInt8.ofNat code]
  else if code < 0x800 then [UInt8.ofNat (0xC0 + code / 0x40), tail 1]
  else if code < 0x10000 then [UInt8.ofNat (0xE0 + code / 0x1000), tail 0x40, tail 1]
  else [UInt8.ofNat (0xF0 + code / 0x40000), tail 0x1000, tail 0x40, tail 1]

/-- The bytes of a text. -/
def encode (text : Text) : Bytes :=
  text.flatMap encodeChar

/-- A character that has begun: the bits so far, the number of bytes that are still owed, and
the range in which the next of them must lie. -/
structure Begun where
  bits : Nat
  owed : Nat
  low : Nat := 0x80
  high : Nat := 0xBF

/-- What the first byte of a character says. -/
inductive Lead where
  | whole (c : Char)
  | begins (begun : Begun)
  | invalid

/-- Reads the first byte of a character. The ranges keep out overlong forms, surrogates and codes
above the last character. -/
def lead (byte : Nat) : Lead :=
  if byte < 0x80 then .whole (Char.ofNat byte)
  else if byte < 0xC2 then .invalid
  else if byte < 0xE0 then .begins { bits := byte - 0xC0, owed := 1 }
  else if byte = 0xE0 then .begins { bits := 0, owed := 2, low := 0xA0 }
  else if byte = 0xED then .begins { bits := 0xD, owed := 2, high := 0x9F }
  else if byte < 0xF0 then .begins { bits := byte - 0xE0, owed := 2 }
  else if byte = 0xF0 then .begins { bits := 0, owed := 3, low := 0x90 }
  else if byte < 0xF4 then .begins { bits := byte - 0xF0, owed := 3 }
  else if byte = 0xF4 then .begins { bits := 4, owed := 3, high := 0x8F }
  else .invalid

/-- The characters of the bytes; `none` stands for a maximal start of a character that is not
continued as it must be. -/
def decodeFrom : Option Begun → Bytes → List (Option Char)
  | none, [] => []
  | some _, [] => [none]
  | state, byte :: rest =>
    let fresh := match lead byte.toNat with
      | .whole c => some c :: decodeFrom none rest
      | .begins begun => decodeFrom (some begun) rest
      | .invalid => none :: decodeFrom none rest
    match state with
    | none => fresh
    | some begun =>
      if begun.low ≤ byte.toNat && byte.toNat ≤ begun.high then
        let bits := begun.bits * 0x40 + (byte.toNat - 0x80)
        if begun.owed ≤ 1 then some (Char.ofNat bits) :: decodeFrom none rest
        else decodeFrom (some { bits, owed := begun.owed - 1 }) rest
      else none :: fresh

/-- The characters of the bytes, with `none` where they are not UTF-8. -/
def decode (bytes : Bytes) : List (Option Char) :=
  decodeFrom none bytes

/-- Whether the bytes are the UTF-8 form of a text. -/
def isValid (bytes : Bytes) : Bool :=
  (decode bytes).all Option.isSome

/-- The text of the bytes, with U+FFFD where they are not UTF-8. -/
def decodeLossy (bytes : Bytes) : Text :=
  (decode bytes).map fun c => c.getD '\uFFFD'

/-- The text of the bytes, if they are UTF-8. -/
def decode? (bytes : Bytes) : Option Text :=
  (decode bytes).mapM id

end Utf8

end MemberSplit
