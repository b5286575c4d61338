import MemberSplit.Text.Basic

/-!
# File name components

The name of a type can hold any characters; the part of a file name made from it holds ASCII
letters, digits, underscores and hyphens only.
-/

namespace MemberSplit.Text

/-- Whether the character stays as it is in a file name. -/
def isFileChar (c : Char) : Bool :=
  c.isAlphanum || c == '_' || c == '-'

/-- Turns each run of other characters into one underscore, where `inRun` says whether the text
before ended in such a run. -/
def squeeze : (inRun : Bool) → Text → Text
  | _, [] => []
  | inRun, c :: rest =>
    if isFileChar c then c :: squeeze false rest
    else if inRun then squeeze true rest
    else '_' :: squeeze true rest

/-- The text as a component of a file name, without underscores at its ends. -/
def fileComponent (text : Text) : Text :=
  let inner := (squeeze false text).dropWhile (· == '_')
  (inner.reverse.dropWhile (· == '_')).reverse

end MemberSplit.Text
