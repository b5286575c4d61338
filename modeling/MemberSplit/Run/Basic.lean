import MemberSplit.FileTree.Write
import MemberSplit.Aggregator.Basic
import MemberSplit.Run.Plan
import MemberSplit.Summary.Basic

/-!
# Runs

A run writes the planned files, and then replaces the input unless the gate objects. Problems with
single files are part of the summary; only a run that cannot be planned fails, and it changes
nothing.
-/

namespace MemberSplit

/-- What became of a planned file. -/
inductive Attempt where
  /-- It was not tried. -/
  | planned
  | done (status : WriteResult)
  | failed (error : OsError)
  deriving DecidableEq, Repr

/-- The attempt that had a given result. -/
def Attempt.ofResult : Except OsError WriteResult → Attempt
  | .ok status => .done status
  | .error error => .failed error

/-- The status of a file in the summary. -/
def Attempt.status : Attempt → FileStatus
  | .planned => .planned
  | .done .written => .written
  | .done .unchanged => .unchanged
  | .failed _ => .failed

/-- A planned file, and what became of it. -/
structure FileResult where
  file : PlannedFile
  attempt : Attempt
  deriving DecidableEq, Repr

namespace FileResult

/-- The file in the summary. -/
def report (result : FileResult) : FileReport where
  path := result.file.path
  reference := result.file.reference
  group := result.file.destination.group
  functions := result.file.destination.memberNames
  status := result.attempt.status

/-- The problems of a file: braces that do not match, and a failure to write it. -/
def diagnostics (mode : ScanMode) (result : FileResult) : List Diagnostic :=
  let balance := result.file.destination.balance mode
  (if balance.isBalanced then [] else [.unbalanced result.file.path balance.net]) ++
    match result.attempt with
    | .failed error => [.writeFailure result.file.path error.message]
    | _ => []

/-- The log of a file. -/
def log (mode : ScanMode) (result : FileResult) : List Log.Line :=
  let balance := result.file.destination.balance mode
  let path := result.file.path
  (if balance.isBalanced then []
    else [Log.line .error [path, " does not balance (net ", Text.ofInt balance.net, ")"]]) ++
    match result.attempt with
    | .planned => []
    | .done .written => [Log.line .info ["Written: ", path]]
    | .done .unchanged => [Log.line .info ["Unchanged: ", path]]
    | .failed error => [Log.line .error ["failed to write ", path, ": ", error.message]]

end FileResult

/-- What is to be done with the input. -/
inductive Decision where
  /-- There are no definitions, so nothing changes. -/
  | nothing
  | withhold (reasons : List Objection)
  /-- The input would be replaced, but the run is dry. -/
  | onlyPlan
  | replace (text : Text)
  deriving DecidableEq, Repr

namespace Plan

/-- What the gate sees once the files have been tried. -/
def gate (plan : Plan) (results : List FileResult) : Gate where
  unterminated := plan.survey.extraction.unterminated
  duplicates := plan.grouping.repetitions.length
  writeFailures := results.countP fun result => result.attempt.status = .failed
  unbalanced := plan.grouping.destinations.countP fun destination =>
    !(destination.balance plan.config.scanMode).isBalanced
  orphaned := plan.gaps.countP fun gap => gap.diagnostic?.isSome
  lossy := plan.survey.source.lossy

/-- What the input is to be replaced with. -/
def aggregator (plan : Plan) : Aggregator where
  banner := plan.config.banner
  lead := plan.lead
  references := plan.files.map PlannedFile.reference

/-- Decides about the input once the files have been tried. -/
def decide (plan : Plan) (results : List FileResult) : Decision :=
  let reasons := (plan.gate results).reasons
  if plan.definitions.isEmpty then .nothing
  else if !reasons.isEmpty && !plan.survey.job.force then .withhold reasons
  else if plan.survey.job.dryRun then .onlyPlan
  else .replace plan.aggregator.text

/-- What became of the input, where `attempt` is the attempt to replace it, if there was one. -/
def outcome (decision : Decision) (attempt : Attempt) : InputOutcome :=
  match decision, attempt with
  | .nothing, _ => .nothingToSplit
  | .withhold reasons, _ => .withheld reasons
  | .onlyPlan, _ | .replace _, .planned => .planned
  | .replace _, .done .written => .replaced
  | .replace _, .done .unchanged => .unchanged
  | .replace _, .failed error => .failed error.message

/-- The counts of a run. -/
def counts (plan : Plan) : Counts where
  candidates := plan.survey.extraction.candidates.length
  extracted := plan.definitions.length
  nested := plan.survey.extraction.nested
  unterminated := plan.survey.extraction.unterminated
  unrecognized := plan.survey.extraction.unrecognized.length
  defaulted := plan.classified.countP fun classified => classified.rule = .default
  duplicates := plan.grouping.repetitions.length
  commentBlocksDropped := Gap.countDropped plan.gaps

/-- The problem of an input that could not be replaced. -/
def replacementDiagnostics (plan : Plan) (attempt : Attempt) : List Diagnostic :=
  match attempt with
  | .failed error => [.writeFailure plan.input error.message]
  | _ => []

/-- The summary of a run. -/
def summary (plan : Plan) (results : List FileResult) (attempt : Attempt) : Summary where
  input := plan.input
  owner := plan.survey.owner
  declarations := plan.header.map fun check => check.source.path
  outputBase := plan.outputBase
  dryRun := plan.survey.job.dryRun
  forced := plan.survey.job.force
  counts := plan.counts
  files := results.map FileResult.report
  outcome := outcome (plan.decide results) attempt
  diagnostics :=
    plan.diagnostics ++ results.flatMap (FileResult.diagnostics plan.config.scanMode) ++
      plan.gaps.filterMap Gap.diagnostic? ++ plan.replacementDiagnostics attempt

/-- The log of the decision about the input. -/
def decisionLog (plan : Plan) (results : List FileResult) : List Log.Line :=
  if plan.definitions.isEmpty then
    [Log.line .info ["no `", plan.survey.owner, "::` definitions found, nothing to split"]]
  else
    (plan.gate results).reasons.map fun reason =>
      if plan.survey.job.force then
        Log.line .warn ["rewriting ", plan.input, " despite: ", reason.message]
      else Log.line .warn ["leaving ", plan.input, " untouched: ", reason.message]

/-- The log of the attempt to replace the input. -/
def replacementLog (plan : Plan) (attempt : Attempt) : List Log.Line :=
  match attempt with
  | .done .written => [Log.line .info ["rewrote ", plan.input, " as aggregator"]]
  | .failed error =>
    [Log.line .error ["failed to rewrite ", plan.input, ": ", error.message]]
  | _ => []

/-- The log of a run. -/
def fullLog (plan : Plan) (results : List FileResult) (attempt : Attempt) : List Log.Line :=
  plan.log ++ results.flatMap (FileResult.log plan.config.scanMode) ++
    plan.gaps.filterMap Gap.log? ++ plan.decisionLog results ++ plan.replacementLog attempt

end Plan

/-- What a run leaves behind. -/
structure RunResult where
  outcome : Except Failure Summary
  tree : FileTree
  log : List Log.Line

namespace FileTree

/-- Writes a file and tells how that went. -/
def attempt (tree : FileTree) (path : Path) (text : Text) : Attempt × FileTree :=
  let (result, written) := tree.write path text
  (.ofResult result, written)

/-- Writes files one after the other. -/
def writeAll (tree : FileTree) : List PlannedFile → List FileResult × FileTree
  | [] => ([], tree)
  | file :: rest =>
    let (attempt, written) := tree.attempt file.path file.destination.text
    let (results, final) := writeAll written rest
    (⟨file, attempt⟩ :: results, final)

/-- Writes the files of a plan, unless the run is dry. -/
def writeFiles (tree : FileTree) (plan : Plan) : List FileResult × FileTree :=
  if plan.survey.job.dryRun then (plan.files.map fun file => ⟨file, .planned⟩, tree)
  else tree.writeAll plan.files

/-- Replaces the input of a plan if that has been decided. -/
def replaceInput (tree : FileTree) (plan : Plan) (decision : Decision) : Attempt × FileTree :=
  match decision with
  | .replace text => tree.attempt plan.input text
  | _ => (.planned, tree)

/-- Carries out a plan. -/
def carryOut (tree : FileTree) (plan : Plan) : RunResult :=
  let (results, written) := tree.writeFiles plan
  let (attempt, final) := written.replaceInput plan (plan.decide results)
  { outcome := .ok (plan.summary results attempt)
    tree := final
    log := plan.fullLog results attempt }

/-- Does a job. -/
def run (tree : FileTree) (job : Job) : RunResult :=
  match Plan.ofJob tree.read job with
  | .error (failure, log) => { outcome := .error failure, tree, log }
  | .ok plan => tree.carryOut plan

end FileTree

end MemberSplit
