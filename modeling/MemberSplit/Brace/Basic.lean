import MemberSplit.Lexical.Context

/-!
# Braces that count

In literal scanning every brace counts. In lexical scanning a brace counts where it is code, and
not where it is part of a comment or of a quoted literal.
-/

namespace MemberSplit

/-- How braces in comments and quoted literals are treated. -/
inductive ScanMode where
  /-- Every brace counts. -/
  | literal
  /-- A brace in a comment or a quoted literal does not count. -/
  | lexical
  deriving DecidableEq, Repr

/-- A brace that counts. -/
inductive Brace where
  | opening
  | closing
  deriving DecidableEq, Repr

namespace Brace

open Lexical (Context)

/-- The brace that a character in the given context is. -/
def ofChar? (context : Context) (c : Char) : Option Brace :=
  if !context.isCode then none
  else if c = '{' then some .opening
  else if c = '}' then some .closing
  else none

/-- The context after a character; in literal scanning all is code. -/
def nextContext (mode : ScanMode) (context : Context) (c : Char) (following : Option Char) :
    Context :=
  match mode with
  | .literal => .start
  | .lexical => context.next c following

/-- The braces that count in a text that begins in the given context. -/
def listFrom (mode : ScanMode) (context : Context) : Text → List Brace
  | [] => []
  | c :: rest =>
    let others := listFrom mode (nextContext mode context c rest.head?) rest
    match ofChar? context c with
    | some brace => brace :: others
    | none => others

/-- The braces that count in a text. -/
def list (mode : ScanMode) (text : Text) : List Brace :=
  listFrom mode .start text

end Brace

end MemberSplit
