import MemberSplit.Text.Basic

/-!
# Texts without comments

Each comment of a text becomes one space. A block comment that is never closed is no comment, so
that what follows it stays visible. Quoted literals are not looked at.
-/

namespace MemberSplit.Lexical

/-- What the characters of a text are while its comments are taken out. -/
inductive CommentState where
  | outside
  | inLine
  /-- Between the slash and the star that open a block comment. -/
  | atMark
  | inBlock (afterStar : Bool)
  deriving DecidableEq, Repr

/-- Whether a block comment opens at a slash followed by `rest`: a star, and later an end. -/
def opensBlock (rest : Text) : Bool :=
  match rest with
  | '*' :: inner => Text.contains inner "*/"
  | _ => false

/-- Replaces comments by spaces, in a text that begins in the given state. -/
def uncommentFrom : CommentState → Text → Text
  | _, [] => []
  | .outside, c :: rest =>
    if c = '/' && rest.head? = some '/' then ' ' :: uncommentFrom .inLine rest
    else if c = '/' && opensBlock rest then ' ' :: uncommentFrom .atMark rest
    else c :: uncommentFrom .outside rest
  | .inLine, c :: rest =>
    if c = '\n' then c :: uncommentFrom .outside rest else uncommentFrom .inLine rest
  | .atMark, _ :: rest => uncommentFrom (.inBlock false) rest
  | .inBlock afterStar, c :: rest =>
    if afterStar && c = '/' then uncommentFrom .outside rest
    else uncommentFrom (.inBlock (c == '*')) rest

/-- The text with each comment replaced by a space. -/
def uncomment (text : Text) : Text :=
  uncommentFrom .outside text

end MemberSplit.Lexical
