import MemberSplit.Text.Basic

/-!
# Lexical contexts

A place in source text is code, or lies in a comment or in a quoted literal. The context of a
place follows from the context of the place before it, the character between the two, and the
character after that, so that one walk over the text finds all contexts.
-/

namespace MemberSplit.Lexical

/-- What a place in source text belongs to. -/
inductive Context where
  /-- Code; after a decimal digit, a single quote can separate digits. -/
  | code (afterDigit : Bool)
  /-- A comment that ends before the next newline. -/
  | lineComment
  /-- Between the two characters that open a block comment. -/
  | commentMark
  /-- A comment that ends with a star and a slash. -/
  | blockComment (afterStar : Bool)
  /-- A literal that ends with `mark`; a backslash takes the meaning from the next character. -/
  | quoted (mark : Char) (escaped : Bool)
  deriving DecidableEq, Repr

namespace Context

/-- The context at the start of a text. -/
def start : Context := .code false

/-- Whether characters stand for themselves. -/
def isCode : Context → Bool
  | .code _ => true
  | _ => false

/-- Whether the character is a hexadecimal digit. -/
def isHexDigit (c : Char) : Bool :=
  c.isDigit || ('a' ≤ c && c ≤ 'f') || ('A' ≤ c && c ≤ 'F')

/-- The context after character `c`, with `following` as the character after it. A single quote
opens a literal unless it stands between a decimal and a hexadecimal digit; such a literal also
ends before a newline. -/
def next (context : Context) (c : Char) (following : Option Char) : Context :=
  match context with
  | .code afterDigit =>
    if c = '/' then
      if following = some '/' then .lineComment
      else if following = some '*' then .commentMark
      else .code false
    else if c = '"' then .quoted '"' false
    else if c = '\'' then
      if afterDigit && following.any isHexDigit then .code false else .quoted '\'' false
    else .code c.isDigit
  | .lineComment => if c = '\n' then .code false else .lineComment
  | .commentMark => .blockComment false
  | .blockComment afterStar =>
    if afterStar && c = '/' then .code false else .blockComment (c == '*')
  | .quoted mark escaped =>
    if escaped then .quoted mark false
    else if c = '\\' then .quoted mark true
    else if c = mark then .code false
    else if mark = '\'' && c = '\n' then .code false
    else .quoted mark false

end Context

end MemberSplit.Lexical
