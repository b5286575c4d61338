import MemberSplit.Signature.Name
import MemberSplit.Text.Brackets

/-!
# Types of parameters

The type of a parameter is its declaration without default value and name, with single spaces and
no space before a reference or pointer mark. `ParameterType.base` also drops what decorates a type.
-/

namespace MemberSplit.ParameterType

/-- A character after which the name of a parameter can stand. -/
def endsType (c : Char) : Bool :=
  isBlank c || c == '*' || c == '&' || c == '>'

/-- Whether the text is a row of square brackets, where `inside` says whether one is open. -/
def isArrays : (inside : Bool) → Text → Bool
  | inside, [] => !inside
  | false, c :: rest => c == '[' && isArrays true rest
  | true, c :: rest => isArrays (c != ']') rest

/-- The array brackets behind a name, if the text is a name and such brackets. -/
def arraysAfterName? (text : Text) : Option Text :=
  match Name.identifier? text.trimStart with
  | none => none
  | some (_, rest) => if isArrays false rest.trimStart then some rest.trimStart else none

/-- A type of one character and the array brackets, if the character ends a type and the rest is a
name and such brackets. -/
def cutBehind? (c : Char) (rest : Text) : Option (Text × Text) :=
  if endsType c then (arraysAfterName? rest).map fun arrays => ([c], arrays) else none

/-- Cuts the name out of a declaration: the shortest type in front of it, and the array brackets
behind it. -/
def cutName? : Text → Option (Text × Text)
  | [] => none
  | c :: rest => cutBehind? c rest <|> (cutName? rest).map (Text.extend [c])

/-- Words in front of which no type ends; what follows one of them alone is no name. -/
def openWords : List Text :=
  ["const", "volatile", "unsigned", "signed", "long", "short", "struct", "class"].map
    String.toList

/-- The declaration of a parameter without its default value, with single spaces. -/
def declaration (param : Text) : Text :=
  ((param.splitOutside '=').headD []).collapseBlanks

/-- A declaration with single spaces, without its name. -/
def withoutName (declaration : Text) : Text :=
  match cutName? declaration with
  | none => declaration
  | some (type, arrays) =>
    if type.trimEnd.isEmpty || openWords.contains type.trimEnd then declaration
    else type.trimEnd ++ arrays

/-- The type of a parameter. -/
def ofParam (param : Text) : Text :=
  Text.replace (Text.replace (withoutName (declaration param)) " &".toList "&".toList)
    " *".toList "*".toList

/-- Words in front of a type that are not part of its name. -/
def leadWords : List Text :=
  ["const", "volatile", "struct", "class", "typename", "enum"].map String.toList

/-- The words of a type without the lead words in front; the last word stays. -/
def dropLeadWords : List Text → List Text
  | word :: next :: rest =>
    if leadWords.contains word then dropLeadWords (next :: rest) else word :: next :: rest
  | words => words

/-- The type without qualifiers, elaborating keywords, and reference and pointer marks. -/
def base (type : Text) : Text :=
  let named := Text.joinWith [' '] (dropLeadWords type.words)
  let unmarked : Text := named.map fun c => if c = '&' || c = '*' then ' ' else c
  Text.joinWith [' '] <| unmarked.words.filter fun word =>
    word ≠ "const" && word ≠ "volatile"

end MemberSplit.ParameterType
