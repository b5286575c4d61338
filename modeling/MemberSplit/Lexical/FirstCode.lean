import MemberSplit.Lexical.Context

/-!
# The first code of a text

A gap between definitions may hold white space and comments; anything else in it is code that
would be lost. `firstCode?` finds where such code begins.
-/

namespace MemberSplit.Lexical

/-- White space or a byte order mark. -/
def isFiller (c : Char) : Bool :=
  isBlank c || c == '\uFEFF'

/-- Whether `c` opens a comment, given the character after it. -/
def opensComment (c : Char) (following : Option Char) : Bool :=
  c == '/' && (following == some '/' || following == some '*')

/-- Byte offset of the first code in a text that begins at `offset` in the given context. -/
def firstCodeFrom? (context : Context) (offset : Nat) : Text → Option Nat
  | [] => none
  | c :: rest =>
    if context.isCode && !isFiller c && !opensComment c rest.head? then some offset
    else firstCodeFrom? (context.next c rest.head?) (offset + c.utf8Size) rest

/-- Byte offset of the first character that is neither white space nor part of a comment. -/
def firstCode? (text : Text) : Option Nat :=
  firstCodeFrom? .start 0 text

end MemberSplit.Lexical
