import MemberSplit.Text.Basic
import MemberSplit.Text.WordChar

/-!
# Word boundaries

A place lies between the character before it, if any, and the text after it. Looking for a word
means looking for its characters at a place where a word begins or ends.
-/

namespace MemberSplit.Text

/-- Whether a character, or the edge of the text, is part of a word. -/
def inWord : Option Char → Bool
  | some c => isWordChar c
  | none => false

/-- Whether exactly one side of a place is part of a word. -/
def atBoundary (before : Option Char) (after : Text) : Bool :=
  inWord before != inWord after.head?

/-- What follows `word`, if the text after a place starts with it and the place is a boundary. -/
def afterWord? (word : Text) (before : Option Char) (after : Text) : Option Text :=
  if atBoundary before after then dropLead? after word else none

end MemberSplit.Text
