import MemberSplit.Text.Basic

/-!
# Excerpts

A message about a line quotes the line, cut to a length that fits a terminal.
-/

namespace MemberSplit.Text

/-- The text without the white space at its ends, cut after `limit` characters. -/
def excerpt (text : Text) (limit : Nat) : Text :=
  let inner := trim text
  if inner.length ≤ limit then inner else inner.take limit ++ "...".toList

/-- Characters of a line that a message quotes. -/
def excerptLimit : Nat := 80

end MemberSplit.Text
