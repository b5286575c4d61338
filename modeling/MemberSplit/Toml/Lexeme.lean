import MemberSplit.Text.Basic

/-!
# Lexemes of TOML

White space, comments, quoted text and keys of a TOML document. Each reader splits a text after
what it reads. Recursion is bounded by a number that the length of the text always reaches.
-/

namespace MemberSplit.Toml

/-- A character between lexemes of one line. -/
def isSpace (c : Char) : Bool :=
  c == ' ' || c == '\t'

/-- A character that can stand in a comment or a quoted text as it is. -/
def isPlain (c : Char) : Bool :=
  c == '\t' || (0x20 ≤ c.toNat && c.toNat != 0x7F)

/-- The text without the spaces at its start. -/
def skipSpaces (text : Text) : Text :=
  text.dropWhile isSpace

/-- What follows a newline at the start of a text. -/
def afterNewline? : Text → Option Text
  | '\n' :: rest => some rest
  | '\r' :: '\n' :: rest => some rest
  | _ => none

/-- The text without spaces, newlines and comments at its start. -/
def skipGaps : (inComment : Bool) → Text → Text
  | _, [] => []
  | inComment, c :: rest =>
    if c = '\n' then skipGaps false rest
    else if c = '\r' && rest.head? = some '\n' then skipGaps inComment rest
    else if inComment then
      if isPlain c then skipGaps true rest else c :: rest
    else if isSpace c then skipGaps false rest
    else if c = '#' then skipGaps true rest
    else c :: rest

/-- What follows the end of a line that holds nothing more than a comment. -/
def afterLine? (text : Text) : Option Text :=
  let rest := match skipSpaces text with
    | '#' :: comment => comment.dropWhile isPlain
    | rest => rest
  if rest.isEmpty then some [] else afterNewline? rest

/-- The value of a hexadecimal digit. -/
def hexValue? (c : Char) : Option Nat :=
  if c.isDigit then some (c.toNat - 0x30)
  else if 'a' ≤ c && c ≤ 'f' then some (c.toNat - 0x57)
  else if 'A' ≤ c && c ≤ 'F' then some (c.toNat - 0x37)
  else none

/-- The character with the hexadecimal code that the text starts with. -/
def codedChar? (digits : Nat) (text : Text) : Option (Text × Text) :=
  match (text.take digits).mapM hexValue? with
  | none => none
  | some values =>
    let code := values.foldl (fun code value => code * 16 + value) 0
    if values.length = digits && code.isValidChar then
      some ([Char.ofNat code], text.drop digits)
    else none

/-- The meaning of an escape, for the text behind its backslash. -/
def escape? : Text → Option (Text × Text)
  | [] => none
  | c :: rest =>
    match c with
    | '"' => some (['"'], rest)
    | '\\' => some (['\\'], rest)
    | 'b' => some (['\x08'], rest)
    | 'e' => some (['\x1b'], rest)
    | 'f' => some (['\x0c'], rest)
    | 'n' => some (['\n'], rest)
    | 'r' => some (['\r'], rest)
    | 't' => some (['\t'], rest)
    | 'x' => codedChar? 2 rest
    | 'u' => codedChar? 4 rest
    | 'U' => codedChar? 8 rest
    | _ => none

/-- Reads quoted text on one line, behind its opening quote. Escapes have a meaning between double
quotes only. -/
def lineText? (mark : Char) : (bound : Nat) → Text → Option (Text × Text)
  | 0, _ => none
  | _, [] => none
  | bound + 1, c :: rest =>
    if c = mark then some ([], rest)
    else if c = '\\' && mark = '"' then
      match escape? rest with
      | none => none
      | some (meaning, others) => (lineText? mark bound others).map (Text.extend meaning)
    else if isPlain c then (lineText? mark bound rest).map (Text.extend [c])
    else none

/-- The text without spaces and newlines at its start. -/
def skipBlanks : Text → Text
  | '\r' :: '\n' :: rest => skipBlanks rest
  | c :: rest => if isSpace c || c = '\n' then skipBlanks rest else c :: rest
  | [] => []

/-- What follows a backslash at the end of a line: the text after all spaces and newlines. -/
def afterLineBreak? (text : Text) : Option Text :=
  (afterNewline? (skipSpaces text)).map skipBlanks

/-- Reads quoted text over several lines, behind its three opening quotes. One or two quotes may
stand in front of the three closing ones. -/
def blockText? (mark : Char) : (bound : Nat) → Text → Option (Text × Text)
  | 0, _ => none
  | _, [] => none
  | bound + 1, c :: rest =>
    let quotes := (c :: rest).takeWhile (· == mark)
    let further (meaning others : Text) := (blockText? mark bound others).map (Text.extend meaning)
    if 3 ≤ quotes.length then
      let extra := min (quotes.length - 3) 2
      some (quotes.take extra, (c :: rest).drop (3 + extra))
    else if c = '\\' && mark = '"' then
      match afterLineBreak? rest with
      | some others => further [] others
      | none =>
        match escape? rest with
        | some (meaning, others) => further meaning others
        | none => none
    else if isPlain c || c = '\n' || (c = '\r' && rest.head? = some '\n') then further [c] rest
    else none

/-- Reads the quoted text that a text starts with. -/
def quoted? (text : Text) : Option (Text × Text) :=
  match text with
  | [] => none
  | mark :: rest =>
    if mark ≠ '"' && mark ≠ '\'' then none
    else match Text.dropLead? rest [mark, mark] with
      | some inner => blockText? mark inner.length ((afterNewline? inner).getD inner)
      | none => lineText? mark rest.length rest

/-- A character of a key without quotes. -/
def isBareChar (c : Char) : Bool :=
  c.isAlphanum || c == '_' || c == '-'

/-- Reads one part of a key. -/
def simpleKey? (text : Text) : Option (Text × Text) :=
  match text with
  | '"' :: rest => lineText? '"' rest.length rest
  | '\'' :: rest => lineText? '\'' rest.length rest
  | _ =>
    match text.takeWhile isBareChar with
    | [] => none
    | key => some (key, text.dropWhile isBareChar)

/-- Reads the parts of a key, with dots between them. -/
def keyParts? : (bound : Nat) → Text → Option (List Text × Text)
  | 0, _ => none
  | bound + 1, text =>
    match simpleKey? (skipSpaces text) with
    | none => none
    | some (part, rest) =>
      match skipSpaces rest with
      | '.' :: others =>
        (keyParts? bound others).map fun (parts, others) => (part :: parts, others)
      | others => some ([part], others)

/-- How deep lists and tables can lie in each other. -/
def nestingLimit : Nat := 80

/-- Reads a key. Each part but the last names a table inside the one before. -/
def key? (text : Text) : Option (List Text × Text) :=
  (keyParts? text.length text).filter fun (parts, _) => parts.length ≤ nestingLimit

end MemberSplit.Toml
