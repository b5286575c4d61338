import MemberSplit.Diagnostic
import MemberSplit.Json.Basic

/-!
# Diagnostics in a report

A diagnostic is reported with its severity, its wording, its kind, and the facts that it is about.
-/

namespace MemberSplit.Diagnostic

/-- The facts that a diagnostic is about. -/
def facts : Diagnostic → List (Text × Json)
  | .unterminatedBody name line => [("name", .str name), ("line", .nat line)]
  | .unrecognizedShape line text => [("line", .nat line), ("text", .str text)]
  | .defaulted name line reason =>
    [("name", .str name), ("line", .nat line), ("reason", .str reason)]
  | .writeFailure path message => [("path", .str path), ("message", .str message)]
  | .duplicate name line firstLine destination =>
    [("name", .str name), ("line", .nat line), ("first_line", .nat firstLine),
      ("destination", .str destination)]
  | .unbalanced path depth => [("path", .str path), ("depth", .num depth)]
  | .orphanedCode line text => [("line", .nat line), ("text", .str text)]
  | .undeclared name line => [("name", .str name), ("line", .nat line)]
  | .missingDefinition name => [("name", .str name)]
  | .lossyDecode path => [("path", .str path)]

/-- A diagnostic as it is reported. -/
def toJson (diagnostic : Diagnostic) : Json :=
  .obj (("severity", .str diagnostic.severity.label) ::
    ("message", .str diagnostic.message) :: ("kind", .str diagnostic.kind) :: diagnostic.facts)

end MemberSplit.Diagnostic
