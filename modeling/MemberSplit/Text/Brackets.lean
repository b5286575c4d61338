import MemberSplit.Text.Basic

/-!
# Splitting outside brackets

A parameter list is cut at its commas, but a comma inside round, angle or square brackets belongs
to a type. The three kinds of bracket count alike, and the depth is signed, so that a closing
bracket without its partner also hides what follows it.
-/

namespace MemberSplit.Text

/-- The change of depth that a character makes. -/
def bracketDelta (c : Char) : Int :=
  if c = '(' || c = '<' || c = '[' then 1
  else if c = ')' || c = '>' || c = ']' then -1
  else 0

/-- Cuts at each `separator` that stands at depth zero, where `depth` brackets are open before the
text. A bracket never separates. -/
def splitOutsideFrom (separator : Char) : (depth : Int) → Text → List Text
  | _, [] => [[]]
  | depth, c :: rest =>
    let delta := bracketDelta c
    if c = separator && delta = 0 && depth = 0 then [] :: splitOutsideFrom separator 0 rest
    else consPiece c (splitOutsideFrom separator (depth + delta) rest)

/-- The pieces between the separators outside brackets. -/
def splitOutside (text : Text) (separator : Char) : List Text :=
  splitOutsideFrom separator 0 text

end MemberSplit.Text
