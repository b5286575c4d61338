import MemberSplit.Text.Basic

/-!
# Lines

Lines are counted from one and end before their newline. `lineAt` finds the line of a byte offset,
and `lineSpan` the bytes of a line.
-/

namespace MemberSplit.Text

/-- Byte offsets right after each newline, for a text that begins at `offset`. -/
def newlineEnds : (offset : Nat) → Text → List Nat
  | _, [] => []
  | offset, c :: rest =>
    let next := offset + c.utf8Size
    if c = '\n' then next :: newlineEnds next rest else newlineEnds next rest

/-- Byte offsets at which the lines begin, in ascending order. -/
def lineStarts (text : Text) : List Nat :=
  0 :: newlineEnds 0 text

/-- The line, counted from one, that holds a byte offset. -/
def lineAt (text : Text) (offset : Nat) : Nat :=
  (lineStarts text).countP (· ≤ offset)

/-- First byte of a line, and the end of the line before its newline. -/
def lineSpan (text : Text) (line : Nat) : Nat × Nat :=
  let starts := lineStarts text
  let stop := match starts[line]? with
    | some next => next - 1
    | none => byteLength text
  (starts.getD (line - 1) 0, stop)

/-- The characters of a line, without its newline. -/
def lineText (text : Text) (line : Nat) : Text :=
  let (start, stop) := lineSpan text line
  slice text start stop

end MemberSplit.Text
