import MemberSplit.Report.Styled
import MemberSplit.Summary.Basic

/-!
# The report on the console

A summary as a person reads it: a headline, the files, what became of the input, the problems, and
the counts.
-/

namespace MemberSplit.Report

open Styled (Span Style plain styled)

/-- The word and colour for the status of a file. -/
def statusLook : FileStatus → Text × Styled.Color
  | .written => ("written", .green)
  | .unchanged => ("unchanged", .blue)
  | .planned => ("planned", .cyan)
  | .failed => ("failed", .red)

/-- The colour for a severity. -/
def severityColor : Severity → Styled.Color
  | .error => .red
  | .warning => .yellow
  | .info => .cyan

/-- The text with spaces behind it, up to a width. -/
def padded (width : Nat) (text : Text) : Text :=
  text ++ List.replicate (width - text.length) ' '

/-- The input, and how many of its candidates were extracted. -/
def headline (summary : Summary) : List Span :=
  [styled { bold := true } summary.input,
    plain [": ", Text.ofNat summary.counts.extracted, " of ",
      Text.ofNat summary.counts.candidates, " `", summary.owner, "` definition(s) extracted",
      if summary.dryRun then " (dry run)" else "", "\n"]]

/-- The line about one file. -/
def fileLine (file : FileReport) : List Span :=
  let (label, color) := statusLook file.status
  [plain ["  "], styled { color } (padded 10 label),
    plain [" ", file.path, "  ", Text.ofNat file.functions.length, " function(s)  [",
      file.group.label, "]\n"]]

/-- The lines about the files, if there are any. -/
def fileLines (summary : Summary) : List Span :=
  if summary.files.isEmpty then [] else plain ["\n"] :: summary.files.flatMap fileLine

/-- The lines about the input. -/
def outcomeLines (summary : Summary) : List Span :=
  plain ["aggregator: "] :: match summary.outcome with
  | .replaced =>
    [styled { color := some .green } "rewritten",
      plain [if summary.forced then " (forced)\n" else "\n"]]
  | .unchanged => [plain ["unchanged\n"]]
  | .planned => [plain ["would be rewritten\n"]]
  | .nothingToSplit => [plain ["nothing to split\n"]]
  | .withheld reasons =>
    [styled { bold := true, color := some .yellow } "withheld",
      plain [" (use --force to override)\n"]] ++
    reasons.map fun reason => plain ["  - ", reason.message, "\n"]
  | .failed message =>
    [styled { bold := true, color := some .red } "failed", plain [": ", message, "\n"]]

/-- The line about one problem. -/
def diagnosticLine (diagnostic : Diagnostic) : List Span :=
  let severity := diagnostic.severity
  [styled { bold := true, color := some (severityColor severity) } severity.label,
    plain [": ", diagnostic.message, "\n"]]

/-- The lines about the problems, without those that only inform unless they are asked for. -/
def diagnosticLines (showInfo : Bool) (summary : Summary) : List Span :=
  let shown := summary.diagnostics.filter fun diagnostic =>
    showInfo || diagnostic.severity ≠ .info
  if shown.isEmpty then []
  else plain ["\n"] :: shown.flatMap diagnosticLine ++ [plain ["\n"]]

/-- The last line. -/
def countsLine (counts : Counts) : List Span :=
  [plain ["skipped: ", Text.ofNat counts.unterminated, " unterminated, ",
    Text.ofNat counts.nested, " nested, ", Text.ofNat counts.unrecognized,
    " unrecognized; defaulted: ", Text.ofNat counts.defaulted, "; duplicates: ",
    Text.ofNat counts.duplicates, "; comment blocks dropped: ",
    Text.ofNat counts.commentBlocksDropped, "\n"]]

/-- The whole report. -/
def console (showInfo : Bool) (summary : Summary) : List Span :=
  headline summary ++ fileLines summary ++ plain ["\n"] :: outcomeLines summary ++
    diagnosticLines showInfo summary ++ countsLine summary.counts

end MemberSplit.Report
