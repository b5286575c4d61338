import MemberSplit.Text.Basic

/-!
# JSON values

A report is also written as JSON. The members of an object keep their order, and a value is printed
over several lines with an indentation of two spaces.
-/

namespace MemberSplit

/-- A JSON value; all numbers are integers. -/
inductive Json where
  | null
  | bool (value : Bool)
  | num (value : Int)
  | str (value : Text)
  | arr (items : List Json)
  | obj (members : List (Text × Json))

namespace Json

/-- A natural number as a value. -/
def nat (value : Nat) : Json :=
  .num value

/-- A text, or null where there is none. -/
def optStr : Option Text → Json
  | none => .null
  | some value => .str value

/-- A list of texts as a value. -/
def strs (values : List Text) : Json :=
  .arr (values.map .str)

/-- The lower case hexadecimal digit of a number below sixteen. -/
def hexDigit (value : Nat) : Char :=
  Nat.digitChar (value % 16)

/-- A character as it stands in a quoted text. Quotes, backslashes and control characters are
escaped, and nothing else. -/
def escapeChar (c : Char) : Text :=
  if c = '"' then "\\\""
  else if c = '\\' then "\\\\"
  else if c = '\n' then "\\n"
  else if c = '\r' then "\\r"
  else if c = '\t' then "\\t"
  else if c.toNat = 0x08 then "\\b"
  else if c.toNat = 0x0C then "\\f"
  else if c.toNat < 0x20 then "\\u00" ++ [hexDigit (c.toNat / 16), hexDigit c.toNat]
  else [c]

/-- A text between quotes. -/
def quote (text : Text) : Text :=
  '"' :: text.flatMap escapeChar ++ ['"']

/-- A new line with its indentation. -/
def newLine (indent : Nat) : Text :=
  '\n' :: List.replicate indent ' '

mutual

/-- The text of a value that begins on a line with the given indentation. -/
def render (indent : Nat) : Json → Text
  | .null => "null"
  | .bool true => "true"
  | .bool false => "false"
  | .num value => Text.ofInt value
  | .str value => quote value
  | .arr [] => "[]"
  | .arr (item :: items) =>
    '[' :: newLine (indent + 2) ++ render (indent + 2) item ++ renderItems (indent + 2) items ++
      newLine indent ++ [']']
  | .obj [] => ['{', '}']
  | .obj ((key, value) :: members) =>
    '{' :: newLine (indent + 2) ++ quote key ++ ": " ++ render (indent + 2) value ++
      renderMembers (indent + 2) members ++ newLine indent ++ ['}']

/-- The items of an array after its first. -/
def renderItems (indent : Nat) : List Json → Text
  | [] => []
  | item :: items => ',' :: newLine indent ++ render indent item ++ renderItems indent items

/-- The members of an object after its first. -/
def renderMembers (indent : Nat) : List (Text × Json) → Text
  | [] => []
  | (key, value) :: members =>
    ',' :: newLine indent ++ quote key ++ ": " ++ render indent value ++
      renderMembers indent members

end

/-- The text of a value. -/
def pretty (value : Json) : Text :=
  render 0 value

end Json

end MemberSplit
