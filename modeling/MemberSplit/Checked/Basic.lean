import MemberSplit.Text.Brackets
import MemberSplit.Text.Line
import MemberSplit.Text.Utf8

/-!
# Operations with checks

Offsets count bytes, and a text can be cut only where no character lies across the offset. A line
has a number in the range of the lines, and a counter has a range too. The operations here fail
where this is violated, and otherwise give what those without a check give.
-/

namespace MemberSplit

/-- What is wrong with the arguments of an operation. -/
inductive Fault where
  /-- The offsets are not in order, or one of them is not a place of the text. -/
  | slice (start stop : Nat)
  /-- The text has fewer lines. -/
  | line (number : Nat)
  /-- The count is out of range. -/
  | count (value : Int)
  deriving DecidableEq, Repr

namespace Utf8

/-- Whether a byte goes on with a character that has begun in front of it. -/
def isContinuation (byte : UInt8) : Bool :=
  0x80 ≤ byte.toNat && byte.toNat < 0xC0

/-- Whether an offset lies between two characters, or at an end of the bytes. -/
def isBoundary (bytes : Bytes) (offset : Nat) : Bool :=
  match bytes[offset]? with
  | some byte => !isContinuation byte
  | none => offset = bytes.length

end Utf8

namespace Checked

/-- The characters between two offsets, which are in order and no greater than the length of the
text, and which cut no character in two. -/
def slice (text : Text) (start stop : Nat) : Except Fault Text :=
  let bytes := Utf8.encode text
  if start ≤ stop ∧ stop ≤ bytes.length ∧ Utf8.isBoundary bytes start ∧
      Utf8.isBoundary bytes stop then
    .ok (text.slice start stop)
  else .error (.slice start stop)

/-- One less than a count, which is not zero. -/
def pred (count : Nat) : Except Fault Nat :=
  match count with
  | 0 => .error (.count (-1))
  | count + 1 => .ok count

/-- A count that a signed number of 32 bits can hold. -/
def int32 (count : Int) : Except Fault Int :=
  if -0x80000000 ≤ count ∧ count < 0x80000000 then .ok count else .error (.count count)

/-- First byte of a line, and the end of the line before its newline. The number of the line is at
least one, and no greater than the number of lines. -/
def lineSpan (text : Text) (line : Nat) : Except Fault (Nat × Nat) := do
  let index ← pred line
  match text.lineStarts[index]? with
  | none => .error (.line line)
  | some start =>
    match text.lineStarts[line]? with
    | none => .ok (start, text.byteLength)
    | some next => .ok (start, ← pred next)

/-- The characters of a line, without its newline. -/
def lineText (text : Text) (line : Nat) : Except Fault Text := do
  let (start, stop) ← lineSpan text line
  slice text start stop

/-- The pieces between the separators outside brackets, from the piece on that begins at `start`.
The text is read on from `place`, where `rest` is left of it and `depth` brackets are open. -/
def splitOutsideFrom (text : Text) (separator : Char) (depth : Int) (start place : Nat) :
    (rest : Text) → Except Fault (List Text)
  | [] => do
    let last ← slice text start text.byteLength
    return [last]
  | c :: rest => do
    let behind := place + c.utf8Size
    if Text.bracketDelta c ≠ 0 then
      let depth ← int32 (depth + Text.bracketDelta c)
      splitOutsideFrom text separator depth start behind rest
    else if c = separator && depth = 0 then
      let piece ← slice text start place
      let others ← splitOutsideFrom text separator depth behind behind rest
      return piece :: others
    else splitOutsideFrom text separator depth start behind rest

/-- The pieces between the separators outside brackets, cut out of the text by their offsets, with a
depth of 32 bits. -/
def splitOutside (text : Text) (separator : Char) : Except Fault (List Text) :=
  splitOutsideFrom text separator 0 0 0 text

end Checked

end MemberSplit
