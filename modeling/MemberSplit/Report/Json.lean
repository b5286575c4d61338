import MemberSplit.Report.Diagnostics
import MemberSplit.Summary.Basic

/-!
# The report as JSON

A summary as a program reads it. The members of each object come in a fixed order.
-/

namespace MemberSplit

/-- The word for the status of a file. -/
def FileStatus.label : FileStatus → Text
  | .written => "written"
  | .unchanged => "unchanged"
  | .planned => "planned"
  | .failed => "failed"

/-- A group as it is reported. -/
def Group.toJson : Group → Json
  | .core => .obj [("group", .str "core")]
  | .dispatch key => .obj [("group", .str "dispatch"), ("key", .str key)]
  | .helper => .obj [("group", .str "helper")]

/-- A reason as it is reported. -/
def Objection.toJson (reason : Objection) : Json :=
  .obj (("reason", .str reason.label) :: match reason.count? with
    | some count => [("count", .nat count)]
    | none => [])

/-- What became of the input, as it is reported. -/
def InputOutcome.toJson : InputOutcome → Json
  | .replaced => .obj [("status", .str "rewritten")]
  | .unchanged => .obj [("status", .str "unchanged")]
  | .planned => .obj [("status", .str "planned")]
  | .withheld reasons =>
    .obj [("status", .str "withheld"), ("reasons", .arr (reasons.map Objection.toJson))]
  | .failed message => .obj [("status", .str "failed"), ("message", .str message)]
  | .nothingToSplit => .obj [("status", .str "nothing_to_split")]

/-- A file as it is reported. -/
def FileReport.toJson (file : FileReport) : Json :=
  .obj [("path", .str file.path), ("reference", .str file.reference),
    ("classification", file.group.toJson), ("functions", .strs file.functions),
    ("status", .str file.status.label)]

/-- The counts as they are reported. -/
def Counts.toJson (counts : Counts) : Json :=
  .obj [("candidates", .nat counts.candidates), ("extracted", .nat counts.extracted),
    ("nested", .nat counts.nested), ("unterminated", .nat counts.unterminated),
    ("unrecognized", .nat counts.unrecognized), ("defaulted", .nat counts.defaulted),
    ("duplicates", .nat counts.duplicates),
    ("comment_blocks_dropped", .nat counts.commentBlocksDropped)]

/-- A summary as it is reported, judged strictly or not. -/
def Summary.toJson (summary : Summary) (strict : Bool) : Json :=
  .obj [("input", .str summary.input), ("owner", .str summary.owner),
    ("declarations", .optStr summary.declarations), ("output_root", .str summary.outputBase),
    ("dry_run", .bool summary.dryRun), ("forced", .bool summary.forced),
    ("counts", summary.counts.toJson),
    ("destinations", .arr (summary.files.map FileReport.toJson)),
    ("aggregator", summary.outcome.toJson), ("success", .bool (summary.isSuccess strict)),
    ("diagnostics", .arr (summary.diagnostics.map Diagnostic.toJson))]

end MemberSplit
