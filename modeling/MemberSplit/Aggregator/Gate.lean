import MemberSplit.Text.Basic

/-!
# The gate before the input is replaced

The input is replaced only if nothing went wrong that this would make permanent. The gate collects
the reasons against it; no reason means that nothing is lost.
-/

namespace MemberSplit

/-- A reason to leave the input as it is. -/
inductive Objection where
  | unterminatedBodies (count : Nat)
  | duplicateDefinitions (count : Nat)
  | writeFailures (count : Nat)
  | unbalancedDestinations (count : Nat)
  | orphanedCode (count : Nat)
  | lossyInput
  deriving DecidableEq, Repr

namespace Objection

/-- The word for a reason. -/
def label : Objection → Text
  | .unterminatedBodies _ => "unterminated_bodies"
  | .duplicateDefinitions _ => "duplicate_definitions"
  | .writeFailures _ => "write_failures"
  | .unbalancedDestinations _ => "unbalanced_destinations"
  | .orphanedCode _ => "orphaned_code"
  | .lossyInput => "lossy_input"

/-- How often the reason was met, where that is counted. -/
def count? : Objection → Option Nat
  | .unterminatedBodies count | .duplicateDefinitions count | .writeFailures count
  | .unbalancedDestinations count | .orphanedCode count => some count
  | .lossyInput => none

/-- The wording of a reason. -/
def message : Objection → Text
  | .unterminatedBodies count =>
    Text.concat [Text.ofNat count, " function body(s) never closed"]
  | .duplicateDefinitions count =>
    Text.concat [Text.ofNat count, " duplicate definition(s) dropped"]
  | .writeFailures count =>
    Text.concat [Text.ofNat count, " destination file(s) failed to write"]
  | .unbalancedDestinations count =>
    Text.concat [Text.ofNat count, " destination file(s) do not balance their braces"]
  | .orphanedCode count =>
    Text.concat ["code outside extracted functions in ", Text.ofNat count, " place(s)"]
  | .lossyInput =>
    "input is not valid UTF-8 and would be rewritten with replacement characters"

end Objection

/-- What the gate looks at. -/
structure Gate where
  unterminated : Nat := 0
  duplicates : Nat := 0
  writeFailures : Nat := 0
  unbalanced : Nat := 0
  orphaned : Nat := 0
  lossy : Bool := false
  deriving DecidableEq, Repr

/-- The reasons against replacing the input, in a fixed order. -/
def Gate.reasons (gate : Gate) : List Objection :=
  let counted : List Objection :=
    [.unterminatedBodies gate.unterminated, .duplicateDefinitions gate.duplicates,
      .writeFailures gate.writeFailures, .unbalancedDestinations gate.unbalanced,
      .orphanedCode gate.orphaned]
  (counted.filter fun reason => reason.count? ≠ some 0) ++
    if gate.lossy then [.lossyInput] else []

end MemberSplit
