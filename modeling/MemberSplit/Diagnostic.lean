import MemberSplit.Text.Basic

/-!
# Diagnostics

A diagnostic is a problem with one definition or one file. It is part of the result of a run, which
goes on after it. Each kind of problem has its severity and its wording here.
-/

namespace MemberSplit

/-- How much a diagnostic matters for the outcome of a run. -/
inductive Severity where
  | info
  | warning
  | error
  deriving DecidableEq, Repr

/-- The word for a severity. -/
def Severity.label : Severity → Text
  | .info => "info"
  | .warning => "warning"
  | .error => "error"

/-- A problem from which a run recovers. -/
inductive Diagnostic where
  /-- The braces of a body never close; the definition is skipped. -/
  | unterminatedBody (name : Text) (line : Nat)
  /-- A line mentions the owner, but no signature was found on it. -/
  | unrecognizedShape (line : Nat) (text : Text)
  /-- No rule claimed the definition, so it is a helper. -/
  | defaulted (name : Text) (line : Nat) (reason : Text)
  /-- A file could not be written. -/
  | writeFailure (path : Text) (message : Text)
  /-- The same overload is defined twice for one file; the later definition is dropped. -/
  | duplicate (name : Text) (line : Nat) (firstLine : Nat) (destination : Text)
  /-- The braces of a file do not match. -/
  | unbalanced (path : Text) (depth : Int)
  /-- There is code between the definitions, which the aggregator would lose. -/
  | orphanedCode (line : Nat) (text : Text)
  /-- The definition has no declaration. -/
  | undeclared (name : Text) (line : Nat)
  /-- The declaration has no definition. -/
  | missingDefinition (name : Text)
  /-- A file is not UTF-8. -/
  | lossyDecode (path : Text)
  deriving DecidableEq, Repr

namespace Diagnostic

/-- The severity of each kind of problem. -/
def severity : Diagnostic → Severity
  | .unterminatedBody .. | .writeFailure .. | .duplicate .. | .unbalanced .. => .error
  | .unrecognizedShape .. | .defaulted .. | .orphanedCode .. | .lossyDecode .. => .warning
  | .undeclared .. | .missingDefinition .. => .info

/-- The word for the kind of problem. -/
def kind : Diagnostic → Text
  | .unterminatedBody .. => "unterminated_body"
  | .unrecognizedShape .. => "unrecognized_signature_shape"
  | .defaulted .. => "misclassified_default"
  | .writeFailure .. => "output_write_failure"
  | .duplicate .. => "duplicate_definition"
  | .unbalanced .. => "unbalanced_destination"
  | .orphanedCode .. => "orphaned_code"
  | .undeclared .. => "undeclared_function"
  | .missingDefinition .. => "missing_definition"
  | .lossyDecode .. => "lossy_decode"

/-- A message about a line. -/
def atLine (line : Nat) (parts : List Text) : Text :=
  Text.concat ("line " :: Text.ofNat line :: ": " :: parts)

/-- The wording of a diagnostic. -/
def message : Diagnostic → Text
  | .unterminatedBody name line =>
    atLine line ["body of `", name, "` is never closed, function skipped"]
  | .unrecognizedShape line text =>
    atLine line ["`", text, "` mentions the owning type but was not recognized"]
  | .defaulted name line reason =>
    atLine line ["`", name, "` routed to helpers by default (", reason, ")"]
  | .writeFailure path message => Text.concat ["failed to write ", path, ": ", message]
  | .duplicate name line firstLine destination =>
    atLine line ["`", name, "` duplicates the definition at line ", Text.ofNat firstLine, " in ",
      destination]
  | .unbalanced path depth =>
    Text.concat [path, " does not balance its braces (net depth ", Text.ofInt depth, ")"]
  | .orphanedCode line text =>
    atLine line ["code outside any extracted function: `", text, "`"]
  | .undeclared name line =>
    atLine line ["`", name, "` is defined but not declared in the declarations file"]
  | .missingDefinition name =>
    Text.concat ["`", name, "` is declared but no definition was extracted"]
  | .lossyDecode path =>
    Text.concat [path, " is not valid UTF-8; invalid sequences were replaced"]

/-- The number of diagnostics of a severity. -/
def countOf (severity : Severity) (diagnostics : List Diagnostic) : Nat :=
  diagnostics.countP fun diagnostic => diagnostic.severity = severity

end Diagnostic

end MemberSplit
