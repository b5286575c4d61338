import MemberSplit.Brace.Block
import MemberSplit.Definition.Basic
import MemberSplit.Diagnostic
import MemberSplit.Lexical.Uncomment
import MemberSplit.NameSet
import MemberSplit.Signature.Name

/-!
# Members declared in a header

A header is read for the names of the member functions that the body of a type declares without
defining them. The names are compared with the definitions of a source: a definition can lack its
declaration, and a declaration its definition.
-/

namespace MemberSplit.Header

/-- What follows the brace that opens the body of a type, for a text that is at the name `short`
of the type, behind the character `before`. -/
def bodyAfterName? (short : Text) (before : Option Char) (text : Text) : Option Text :=
  match text.dropLead? short with
  | none => none
  | some rest =>
    if Text.atBoundary (short.getLast?.or before) rest then
      match rest.dropWhile fun c => c != ';' && c != '{' with
      | '{' :: body => some body
      | _ => none
    else none

theorem length_dropWhile_le (p : Char → Bool) (text : Text) :
    (text.dropWhile p).length ≤ text.length :=
  (List.dropWhile_suffix p).length_le

/-- What follows the brace that opens the body of a type, for a text behind the keyword: white
space, any number of words, and the name of the type. As many words as possible are taken. -/
def bodyAfterKeyword? (short : Text) (text : Text) : Option Text :=
  let blanks := text.takeWhile isBlank
  let rest := text.dropWhile isBlank
  if _h : blanks = [] then none
  else
    let pastWord :=
      if (rest.takeWhile isWordChar).isEmpty then none
      else bodyAfterKeyword? short (rest.dropWhile isWordChar)
    match pastWord with
    | some body => some body
    | none =>
      (List.range blanks.length).findSome? fun kept =>
        let taken := blanks.length - kept
        bodyAfterName? short blanks[taken - 1]? (text.drop taken)
termination_by text.length
decreasing_by
  have hrest := length_dropWhile_le isWordChar (text.dropWhile isBlank)
  have hblanks : 0 < (text.takeWhile isBlank).length := List.length_pos_iff.mpr _h
  have htext : (text.takeWhile isBlank ++ text.dropWhile isBlank).length = text.length := by
    rw [List.takeWhile_append_dropWhile]
  rw [List.length_append] at htext
  omega

/-- What follows the brace that opens the body of the type `short`, in a text behind the character
`before`. -/
def typeBodyFrom? (short : Text) (before : Option Char) (text : Text) : Option Text :=
  match text with
  | [] => none
  | c :: rest =>
    let here := (["class", "struct"] : List Text).findSome? fun keyword =>
      (Text.afterWord? keyword before (c :: rest)).bind (bodyAfterKeyword? short)
    match here with
    | some body => some body
    | none => typeBodyFrom? short (some c) rest

/-- The text between the braces of the type `owner`, which a header declares by its last name. -/
def typeBody? (header owner : Text) : Option Text :=
  (typeBodyFrom? owner.lastComponent none header).bind fun body =>
    (Block.split? .lexical body).map fun (inner, _) => inner.dropLast

/-- A statement of a type body, outside inner braces. -/
structure Statement where
  text : Text
  /-- Whether a brace ends it, and not a semicolon. -/
  hasBody : Bool
  deriving DecidableEq, Repr

/-- The statements of a text without comments, where `depth` inner braces are open and `current`
holds the characters of the statement so far, the last one first. -/
def statementsFrom (depth : Nat) (current : Text) : Text → List Statement
  | [] => []
  | c :: rest =>
    if c = '{' then
      if depth = 0 then ⟨current.reverse, true⟩ :: statementsFrom 1 [] rest
      else statementsFrom (depth + 1) current rest
    else if c = '}' then statementsFrom (depth - 1) current rest
    else if depth = 0 then
      if c = ';' then ⟨current.reverse, false⟩ :: statementsFrom 0 [] rest
      else statementsFrom 0 (c :: current) rest
    else statementsFrom depth current rest

/-- The statements of the body of a type. -/
def statements (body : Text) : List Statement :=
  statementsFrom 0 [] (Lexical.uncomment body)

/-- Whether a statement declares no function that needs a definition elsewhere. -/
def isSpecial (statement : Text) : Bool :=
  let compact := statement.withoutBlanks
  (["=0", "=default", "=delete"] : List Text).any (fun ending => ending.isSuffixOf compact) ||
    (["friend", "using", "typedef"] : List Text).any fun lead => lead.isPrefixOf compact

/-- Splits a text after a name and the parenthesis that follows it. -/
def callable? (text : Text) : Option (Text × Text) :=
  (Name.starts isBlank text).findSome? fun (name, rest) =>
    match rest.dropWhile isBlank with
    | '(' :: others => some (name, others)
    | _ => none

theorem length_lt_of_callable? {text name others : Text}
    (h : callable? text = some (name, others)) : others.length < text.length := by
  obtain ⟨⟨name', rest⟩, hmem, hcall⟩ := List.exists_of_findSome?_eq_some h
  have htext := congrArg List.length (Name.append_of_mem_starts hmem)
  have hrest := length_dropWhile_le isBlank rest
  simp only at hcall
  split at hcall
  next heq =>
    obtain ⟨rfl, rfl⟩ := Prod.mk.inj (Option.some.inj hcall)
    rw [heq] at hrest
    simp only [List.length_append, List.length_cons] at htext hrest
    omega
  next => simp at hcall

/-- The names in front of parentheses, from left to right. -/
def callables (text : Text) : List Text :=
  match text with
  | [] => []
  | c :: rest =>
    match _h : callable? (c :: rest) with
    | some (name, others) => name.withoutBlanks :: callables others
    | none => callables rest
termination_by text.length
decreasing_by
  · exact length_lt_of_callable? _h
  · simp

/-- Words that can stand in front of a parenthesis and name no member. -/
def nonMembers : List Text :=
  ["if", "for", "while", "switch", "return", "sizeof", "alignof", "alignas", "decltype",
    "static_assert", "noexcept", "void", "int", "bool", "char", "auto", "double", "float",
    "long", "short", "unsigned", "signed", "explicit", "virtual"]

/-- A statement without the access specifiers that stand in front of it. -/
def withoutAccess (statement : Text) : Text :=
  let behind := (["public:", "protected:", "private:"] : List Text).findSome? fun access =>
    statement.splitAtLast? access
  match behind with
  | some (_, rest) => rest
  | none => statement

/-- The name of the member that a statement declares. -/
def declaredName? (statement : Text) : Option Text :=
  (callables (withoutAccess statement)).find? fun name => !nonMembers.contains name

/-- The names of the member functions that the type `owner` declares without a body, or `none` if
the header does not hold the body of the type. -/
def members? (header owner : Text) : Option NameSet :=
  (typeBody? header owner).map fun body =>
    NameSet.ofList <| (statements body).filterMap fun statement =>
      if statement.hasBody || isSpecial statement.text then none else declaredName? statement.text

/-- The definitions without a declaration, then the declarations without a definition. -/
def mismatches (definitions : List Definition) (declared : NameSet) : List Diagnostic :=
  (definitions.filterMap fun definition =>
    if declared.contains definition.name then none
    else some (.undeclared definition.qualifiedName definition.line)) ++
  declared.toList.filterMap fun name =>
    if definitions.any fun definition => definition.name = name then none
    else some (.missingDefinition name)

end MemberSplit.Header
