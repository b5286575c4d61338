import MemberSplit.Toml.Moment
import MemberSplit.Toml.Number
import MemberSplit.Toml.Value

/-!
# Documents of TOML

A document is a sequence of lines: blank lines, headers of tables, and keys with their values.
`Toml.read?` gives the entries of the document, or nothing if it breaks a rule of the format.
-/

namespace MemberSplit.Toml

/-- A character that ends a value without quotes. -/
def endsWord (c : Char) : Bool :=
  isSpace c || ['=', ',', '[', ']', '{', '}', '#', '\r', '\n'].contains c

/-- Splits a text behind the word that it starts with. A space between a date and a time belongs to
the word. -/
def splitWord (text : Text) : Text × Text :=
  let (word, rest) := text.span fun c => !endsWord c
  match rest with
  | ' ' :: others =>
    let (time, after) := others.span fun c => !endsWord c
    if isMoment (word ++ ' ' :: time) then (word ++ ' ' :: time, after) else (word, rest)
  | _ => (word, rest)

/-- Reads a value without quotes. -/
def word? (text : Text) : Option (Value × Text) :=
  let (word, rest) := splitWord text
  if word = "true" then some (.truth true, rest)
  else if word = "false" then some (.truth false, rest)
  else if isNumber word || isMoment word then some (.quantity word, rest)
  else none

mutual

/-- Reads a value; lists and tables can lie in each other `depth` deep. -/
def value? : (bound depth : Nat) → Text → Option (Value × Text)
  | 0, _, _ => none
  | bound + 1, depth, text =>
    match text, depth with
    | '[' :: _, 0 | '{' :: _, 0 => none
    | '[' :: rest, depth + 1 =>
      (items? bound depth rest).map fun (items, rest) => (.list items, rest)
    | '{' :: rest, depth + 1 =>
      (members? bound depth [] rest).map fun (entries, rest) =>
        (.table (entriesValue entries), rest)
    | '"' :: _, _ | '\'' :: _, _ => (quoted? text).map fun (text, rest) => (.text text, rest)
    | _, _ => word? text

/-- Reads the items of a list up to its closing bracket. -/
def items? : (bound depth : Nat) → Text → Option (List Value × Text)
  | 0, _, _ => none
  | bound + 1, depth, text =>
    match skipGaps false text with
    | ']' :: rest => some ([], rest)
    | inner =>
      match value? bound depth inner with
      | none => none
      | some (item, rest) =>
        match skipGaps false rest with
        | ']' :: rest => some ([item], rest)
        | ',' :: rest =>
          (items? bound depth rest).map fun (items, rest) => (item :: items, rest)
        | _ => none

/-- Reads the members of a table up to its closing brace, and adds them to `entries`. Between a key
and its value there can be newlines and comments. -/
def members? : (bound depth : Nat) → Entries → Text → Option (Entries × Text)
  | 0, _, _, _ => none
  | bound + 1, depth, entries, text =>
    match skipGaps false text with
    | '}' :: rest => some (entries, rest)
    | inner =>
      match (key? inner).map fun (key, rest) => (key, skipGaps false rest) with
      | some (key, '=' :: afterKey) =>
        match value? bound depth (skipGaps false afterKey) with
        | none => none
        | some (value, rest) =>
          match entries.insert key value with
          | none => none
          | some entries =>
            match skipGaps false rest with
            | '}' :: rest => some (entries, rest)
            | ',' :: rest => members? bound depth entries rest
            | _ => none
      | _ => none

end

/-- A line of a document that says something. -/
inductive Statement where
  | beginTable (path : List Text)
  | beginItem (path : List Text)
  | assign (key : List Text) (value : Value)

/-- Reads a statement, up to the end of its line. -/
def statement? (text : Text) : Option (Statement × Text) :=
  match text with
  | '[' :: '[' :: inner =>
    match key? inner with
    | some (path, ']' :: ']' :: rest) => (afterLine? rest).map fun rest => (.beginItem path, rest)
    | _ => none
  | '[' :: inner =>
    match key? inner with
    | some (path, ']' :: rest) => (afterLine? rest).map fun rest => (.beginTable path, rest)
    | _ => none
  | _ =>
    match key? text with
    | some (key, '=' :: rest) =>
      match value? (2 * rest.length + 1) nestingLimit (skipSpaces rest) with
      | some (value, rest) => (afterLine? rest).map fun rest => (.assign key value, rest)
      | none => none
    | _ => none

/-- Reads the statements of a document. -/
def statements? : (bound : Nat) → Text → Option (List Statement)
  | 0, _ => none
  | bound + 1, text =>
    match skipGaps false text with
    | [] => some []
    | inner =>
      match statement? inner with
      | none => none
      | some (statement, rest) => (statements? bound rest).map (statement :: ·)

/-- Carries out the statements in the table at the path `current`. -/
def build? (entries : Entries) (current : List Text) : List Statement → Option Entries
  | [] => some entries
  | .assign key value :: rest =>
    match entries.change current (Entries.insert key value) with
    | none => none
    | some entries => build? entries current rest
  | .beginTable path :: rest =>
    match entries.change path.dropLast (Entries.beginTable (path.getLastD [])) with
    | none => none
    | some entries => build? entries path rest
  | .beginItem path :: rest =>
    match entries.change path.dropLast (Entries.beginItem (path.getLastD [])) with
    | none => none
    | some entries => build? entries path rest

/-- The entries of a document; a byte order mark at its start means nothing. -/
def read? (text : Text) : Option (List (Text × Value)) :=
  let body := match text with
    | '\uFEFF' :: rest => rest
    | _ => text
  (statements? (body.length + 1) body).bind fun statements =>
    (build? [] [] statements).map entriesValue

end MemberSplit.Toml
