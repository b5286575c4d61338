import MemberSplit.Classification
import MemberSplit.Diagnostic
import MemberSplit.Path
import MemberSplit.Aggregator.Gate

/-!
# Summaries

What a run has done: the files it wrote, what became of the input, the problems on the way, and
whether all this is a success.
-/

namespace MemberSplit

/-- What became of a destination file. -/
inductive FileStatus where
  | written
  /-- The file held its text before. -/
  | unchanged
  /-- Nothing was written, because the run was dry. -/
  | planned
  | failed
  deriving DecidableEq, Repr

/-- What became of the input. -/
inductive InputOutcome where
  | replaced
  /-- The input held its new text before. -/
  | unchanged
  /-- Nothing was written, because the run was dry. -/
  | planned
  | withheld (reasons : List Objection)
  | failed (message : Text)
  /-- There were no definitions. -/
  | nothingToSplit
  deriving DecidableEq, Repr

/-- A destination file in a summary. -/
structure FileReport where
  path : Path
  /-- The line by which the input refers to the file. -/
  reference : Text
  group : Group
  /-- The qualified names of the definitions. -/
  functions : List Text
  status : FileStatus
  deriving DecidableEq, Repr

/-- The numbers in a summary. -/
structure Counts where
  candidates : Nat := 0
  extracted : Nat := 0
  nested : Nat := 0
  unterminated : Nat := 0
  unrecognized : Nat := 0
  defaulted : Nat := 0
  duplicates : Nat := 0
  commentBlocksDropped : Nat := 0
  deriving DecidableEq, Repr

/-- What a run has done. -/
structure Summary where
  input : Path
  owner : Text
  /-- The header that was read. -/
  declarations : Option Path
  outputBase : Path
  dryRun : Bool
  forced : Bool
  counts : Counts
  files : List FileReport
  outcome : InputOutcome
  diagnostics : List Diagnostic
  deriving DecidableEq, Repr

namespace Summary

/-- Whether the input is in order: nothing kept it from being replaced. -/
def inputHandled (summary : Summary) : Bool :=
  match summary.outcome with
  | .withheld _ | .failed _ => false
  | _ => true

/-- Whether all went well. A strict judgement also counts warnings. -/
def isSuccess (summary : Summary) (strict : Bool) : Bool :=
  summary.inputHandled && Diagnostic.countOf .error summary.diagnostics = 0 &&
    (!strict || Diagnostic.countOf .warning summary.diagnostics = 0)

/-- The exit code that tells whether all went well. -/
def exitCode (summary : Summary) (strict : Bool) : Nat :=
  if summary.isSuccess strict then 0 else 1

end Summary

end MemberSplit
