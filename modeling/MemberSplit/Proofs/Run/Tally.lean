import MemberSplit.Run.Basic

/-!
# Counting the warnings of a run

Each part of a run warns of problems of its own: the extraction of bodies and lines, the
classification of definitions without a rule, the grouping of repetitions, the files of braces and
of failures. So the warnings about a problem are counted part by part, and just one part has any.
-/

namespace MemberSplit

/-- What a diagnostic is about. -/
inductive Problem where
  | unterminatedBody
  | unrecognizedShape
  | defaulted
  | writeFailure
  | duplicate
  | unbalanced
  | orphanedCode
  /-- What no number of the summary tells: declarations, and files that are not UTF-8. -/
  | remark
  deriving DecidableEq, Repr

namespace Diagnostic

/-- What a diagnostic is about. -/
def problem : Diagnostic → Problem
  | unterminatedBody .. => .unterminatedBody
  | unrecognizedShape .. => .unrecognizedShape
  | defaulted .. => .defaulted
  | writeFailure .. => .writeFailure
  | duplicate .. => .duplicate
  | unbalanced .. => .unbalanced
  | orphanedCode .. => .orphanedCode
  | undeclared .. | missingDefinition .. | lossyDecode .. => .remark

/-- The number of diagnostics about a problem. -/
def tally (problem : Problem) (diagnostics : List Diagnostic) : Nat :=
  diagnostics.countP fun diagnostic => diagnostic.problem = problem

/-- The problems that are errors. -/
def errors : List Problem :=
  [.unterminatedBody, .writeFailure, .duplicate, .unbalanced]

theorem severity_eq_error_iff (diagnostic : Diagnostic) :
    diagnostic.severity = .error ↔ diagnostic.problem ∈ errors := by
  cases diagnostic <;> simp [severity, problem, errors]

@[simp] theorem tally_append (problem : Problem) (first second : List Diagnostic) :
    tally problem (first ++ second) = tally problem first + tally problem second :=
  List.countP_append

@[simp] theorem tally_nil (problem : Problem) : tally problem [] = 0 := rfl

theorem tally_eq_zero_iff {problem : Problem} {diagnostics : List Diagnostic} :
    tally problem diagnostics = 0 ↔
      ∀ diagnostic ∈ diagnostics, diagnostic.problem ≠ problem := by
  simp [tally, List.countP_eq_zero]

/-- What is all about one problem counts for this problem only. -/
theorem tally_of_forall (own : Problem) {diagnostics : List Diagnostic}
    (h : ∀ diagnostic ∈ diagnostics, diagnostic.problem = own) (problem : Problem) :
    tally problem diagnostics = if own = problem then diagnostics.length else 0 := by
  split
  next heq =>
    subst heq
    exact List.countP_eq_length.mpr fun diagnostic hmem => decide_eq_true (h diagnostic hmem)
  next hne =>
    exact tally_eq_zero_iff.mpr fun diagnostic hmem heq => hne ((h diagnostic hmem).symm.trans heq)

theorem tally_singleton (own : Problem) {diagnostic : Diagnostic} (h : diagnostic.problem = own)
    (problem : Problem) : tally problem [diagnostic] = if own = problem then 1 else 0 :=
  tally_of_forall own (fun _ hmem => List.mem_singleton.mp hmem ▸ h) problem

theorem tally_filterMap {α : Type} (own : Problem) (warn : α → Option Diagnostic)
    (h : ∀ a, ∀ diagnostic ∈ warn a, diagnostic.problem = own) (problem : Problem)
    (list : List α) :
    tally problem (list.filterMap warn) =
      if own = problem then list.countP fun a => (warn a).isSome else 0 := by
  have hall : ∀ diagnostic ∈ list.filterMap warn, diagnostic.problem = own := by
    intro diagnostic hmem
    obtain ⟨a, -, ha⟩ := List.mem_filterMap.mp hmem
    exact h a diagnostic ha
  rw [tally_of_forall own hall, List.length_filterMap_eq_countP]

theorem tally_map {α : Type} (own : Problem) (warn : α → Diagnostic)
    (h : ∀ a, (warn a).problem = own) (problem : Problem) (list : List α) :
    tally problem (list.map warn) = if own = problem then list.length else 0 := by
  have hall : ∀ diagnostic ∈ list.map warn, diagnostic.problem = own := by
    intro diagnostic hmem
    obtain ⟨a, -, rfl⟩ := List.mem_map.mp hmem
    exact h a
  rw [tally_of_forall own hall, List.length_map]

/-- There is no error exactly if none of the problems that are errors was met. -/
theorem countOf_error_eq_zero_iff {diagnostics : List Diagnostic} :
    countOf .error diagnostics = 0 ↔ ∀ problem ∈ errors, tally problem diagnostics = 0 := by
  simp only [countOf, List.countP_eq_zero, decide_eq_true_eq, severity_eq_error_iff,
    tally_eq_zero_iff]
  refine ⟨?_, ?_⟩
  · rintro h problem hproblem diagnostic hmem rfl
    exact h diagnostic hmem hproblem
  · intro h diagnostic hmem hproblem
    exact h _ hproblem diagnostic hmem rfl

end Diagnostic

open Diagnostic (tally)

theorem Survey.tally_diagnostics (survey : Survey) {problem : Problem}
    (hproblem : problem ≠ .remark) :
    tally problem survey.diagnostics = tally problem survey.extraction.diagnostics := by
  rw [diagnostics, Diagnostic.tally_append]
  cases survey.source.lossy with
  | false => simp
  | true =>
      have hremark : tally problem [.lossyDecode survey.job.input] = 0 := by
        rw [Diagnostic.tally_singleton .remark rfl, if_neg hproblem.symm]
      simp [hremark]

theorem Extraction.tally_diagnostics (extraction : Extraction) (problem : Problem) :
    tally problem extraction.diagnostics =
      (if .unterminatedBody = problem then extraction.unterminated else 0) +
      if .unrecognizedShape = problem then extraction.unrecognized.length else 0 := by
  have hbodies := Diagnostic.tally_filterMap .unterminatedBody
    (fun candidate : Candidate =>
      if candidate.fate = .unterminated then
        some (.unterminatedBody (extraction.nameOf candidate) candidate.line)
      else none)
    (by simp [Diagnostic.problem]) problem extraction.candidates
  have hshapes := Diagnostic.tally_map .unrecognizedShape
    (fun shape : Nat × Text =>
      .unrecognizedShape shape.1 (shape.2.excerpt Text.excerptLimit))
    (fun _ => rfl) problem extraction.unrecognized
  have hcount : extraction.candidates.countP (fun candidate =>
      (if candidate.fate = .unterminated then
        some (Diagnostic.unterminatedBody (extraction.nameOf candidate) candidate.line)
      else none).isSome) = extraction.unterminated :=
    List.countP_congr fun candidate _ => by simp
  rw [hcount] at hbodies
  rw [diagnostics, Diagnostic.tally_append, hbodies]
  exact congrArg _ hshapes

theorem HeaderCheck.tally_diagnostics (check : HeaderCheck) (definitions : List Definition)
    {problem : Problem} (hproblem : problem ≠ .remark) :
    tally problem (check.diagnostics definitions) = 0 := by
  have hall : ∀ diagnostic ∈ check.diagnostics definitions, diagnostic.problem = .remark := by
    intro diagnostic hmem
    rcases List.mem_append.mp hmem with hlossy | hnames
    · obtain ⟨-, hlossy⟩ := List.mem_ite_nil_right.mp hlossy
      rw [List.mem_singleton.mp hlossy]
      rfl
    · cases hdeclared : check.declared with
      | none => simp [hdeclared] at hnames
      | some names =>
          rw [hdeclared] at hnames
          rcases List.mem_append.mp hnames with hundeclared | hmissing
          · obtain ⟨definition, -, hsome⟩ := List.mem_filterMap.mp hundeclared
            obtain ⟨-, hsome⟩ := Option.ite_none_left_eq_some.mp hsome
            rw [← Option.some.inj hsome]
            rfl
          · obtain ⟨name, -, hsome⟩ := List.mem_filterMap.mp hmissing
            obtain ⟨-, hsome⟩ := Option.ite_none_left_eq_some.mp hsome
            rw [← Option.some.inj hsome]
            rfl
  rw [Diagnostic.tally_of_forall .remark hall, if_neg hproblem.symm]

theorem Config.problem_of_mem_defaultDiagnostic? {config : Config} (classified : Classified) :
    ∀ diagnostic ∈ config.defaultDiagnostic? classified, diagnostic.problem = .defaulted := by
  unfold defaultDiagnostic?
  split
  next => simp [Diagnostic.problem]
  next => simp

theorem Config.isSome_defaultDiagnostic? (config : Config) (classified : Classified) :
    (config.defaultDiagnostic? classified).isSome = decide (classified.rule = .default) := by
  unfold defaultDiagnostic?
  split
  next h => simp [h]
  next h => simp [h]

theorem Gap.problem_of_mem_diagnostic? (gap : Gap) :
    ∀ diagnostic ∈ gap.diagnostic?, diagnostic.problem = .orphanedCode := by
  unfold diagnostic?
  split
  next => simp [Diagnostic.problem]
  next => simp

namespace FileResult

/-- Whether the braces of a file do not match. -/
def isUnbalanced (mode : ScanMode) (result : FileResult) : Bool :=
  !(result.file.destination.balance mode).isBalanced

/-- Whether a file could not be written. -/
def isFailed (result : FileResult) : Bool :=
  result.attempt.status = .failed

theorem tally_diagnostics (mode : ScanMode) (result : FileResult) (problem : Problem) :
    tally problem (result.diagnostics mode) =
      (if .unbalanced = problem then if result.isUnbalanced mode then 1 else 0 else 0) +
      if .writeFailure = problem then if result.isFailed then 1 else 0 else 0 := by
  rw [diagnostics, Diagnostic.tally_append]
  congr 1
  · unfold isUnbalanced
    cases (result.file.destination.balance mode).isBalanced with
    | true => simp
    | false => exact Diagnostic.tally_singleton .unbalanced rfl problem
  · unfold isFailed
    cases result.attempt with
    | planned => simp [Attempt.status]
    | done status => cases status <;> simp [Attempt.status]
    | failed error => exact Diagnostic.tally_singleton .writeFailure rfl problem

theorem tally_flatMap_diagnostics (mode : ScanMode) (results : List FileResult)
    (problem : Problem) :
    tally problem (results.flatMap (diagnostics mode)) =
      (if .unbalanced = problem then results.countP (isUnbalanced mode) else 0) +
      if .writeFailure = problem then results.countP isFailed else 0 := by
  induction results with
  | nil => simp [tally]
  | cons result rest ih =>
      rw [List.flatMap_cons, Diagnostic.tally_append, tally_diagnostics, ih, List.countP_cons,
        List.countP_cons]
      cases problem <;> simp only [if_true, if_false, reduceCtorEq] <;> omega

end FileResult

namespace Plan

variable {plan : Plan} {results : List FileResult}

theorem countP_isUnbalanced (hfiles : results.map FileResult.file = plan.files) :
    results.countP (FileResult.isUnbalanced plan.config.scanMode) =
      (plan.gate results).unbalanced := by
  have hmapped : results.countP (FileResult.isUnbalanced plan.config.scanMode) =
      (results.map FileResult.file).countP fun file =>
        !(file.destination.balance plan.config.scanMode).isBalanced := by
    rw [List.countP_map]
    rfl
  rw [hmapped, hfiles, files, List.countP_map]
  rfl

/-- Each part of a run warns of problems of its own, which one of the counts or the gate tells. -/
theorem tally_summary (hfiles : results.map FileResult.file = plan.files) (attempt : Attempt)
    {problem : Problem} (hproblem : problem ≠ .remark) :
    tally problem (plan.summary results attempt).diagnostics =
      (if .unterminatedBody = problem then plan.counts.unterminated else 0) +
      (if .unrecognizedShape = problem then plan.counts.unrecognized else 0) +
      (if .defaulted = problem then plan.counts.defaulted else 0) +
      (if .duplicate = problem then plan.counts.duplicates else 0) +
      (if .unbalanced = problem then (plan.gate results).unbalanced else 0) +
      (if .orphanedCode = problem then (plan.gate results).orphaned else 0) +
      if .writeFailure = problem then
        (plan.gate results).writeFailures + (plan.replacementDiagnostics attempt).length
      else 0 := by
  have hheader : tally problem
      (plan.header.elim [] fun check => check.diagnostics plan.definitions) = 0 := by
    cases plan.header with
    | none => rfl
    | some check => exact check.tally_diagnostics plan.definitions hproblem
  have hdefaulted : tally problem (plan.classified.filterMap plan.config.defaultDiagnostic?) =
      if .defaulted = problem then plan.counts.defaulted else 0 := by
    rw [Diagnostic.tally_filterMap .defaulted _ Config.problem_of_mem_defaultDiagnostic?]
    simp only [Config.isSome_defaultDiagnostic?]
    rfl
  have hduplicates : tally problem (plan.grouping.repetitions.map Repetition.diagnostic) =
      if .duplicate = problem then plan.counts.duplicates else 0 :=
    Diagnostic.tally_map .duplicate Repetition.diagnostic (fun _ => rfl) problem _
  have horphaned : tally problem (plan.gaps.filterMap Gap.diagnostic?) =
      if .orphanedCode = problem then (plan.gate results).orphaned else 0 :=
    Diagnostic.tally_filterMap .orphanedCode _ Gap.problem_of_mem_diagnostic? problem _
  have hreplacement : tally problem (plan.replacementDiagnostics attempt) =
      if .writeFailure = problem then (plan.replacementDiagnostics attempt).length else 0 := by
    cases attempt with
    | planned => simp [replacementDiagnostics]
    | done status => simp [replacementDiagnostics]
    | failed error => exact Diagnostic.tally_singleton .writeFailure rfl problem
  have hwritten : tally problem (results.flatMap (FileResult.diagnostics plan.config.scanMode)) =
      (if .unbalanced = problem then (plan.gate results).unbalanced else 0) +
      if .writeFailure = problem then (plan.gate results).writeFailures else 0 := by
    rw [FileResult.tally_flatMap_diagnostics, countP_isUnbalanced hfiles]
    rfl
  simp only [summary, diagnostics, Diagnostic.tally_append, Survey.tally_diagnostics _ hproblem,
    Extraction.tally_diagnostics, hheader, hdefaulted, hduplicates, horphaned, hreplacement,
    hwritten]
  cases problem <;> simp [counts]

end Plan

end MemberSplit
