import MemberSplit.Proofs.Destination.Position
import MemberSplit.Proofs.Extraction.Invariant
import MemberSplit.Proofs.Run.Tally
import MemberSplit.Proofs.Run.Writings

/-!
# The numbers of a summary

A summary tells the same things several times: as counts, as diagnostics, as the status of its
files, as the reasons against replacing the input, and as the exit code. Main statement: all these
numbers agree, in every run that does not fail.
-/

namespace MemberSplit

open Diagnostic (tally)

namespace InputOutcome

/-- Whether the gate kept the input from being replaced. -/
def isWithheld : InputOutcome → Bool
  | .withheld _ => true
  | _ => false

/-- Whether the input could not be replaced. -/
def isFailed : InputOutcome → Bool
  | .failed _ => true
  | _ => false

end InputOutcome

namespace Gate

/-- What the gate has to name: each count that is not zero, and an input that is not UTF-8. -/
def Warrants (gate : Gate) : Objection → Prop
  | .unterminatedBodies count => count ≠ 0 ∧ count = gate.unterminated
  | .duplicateDefinitions count => count ≠ 0 ∧ count = gate.duplicates
  | .writeFailures count => count ≠ 0 ∧ count = gate.writeFailures
  | .unbalancedDestinations count => count ≠ 0 ∧ count = gate.unbalanced
  | .orphanedCode count => count ≠ 0 ∧ count = gate.orphaned
  | .lossyInput => gate.lossy = true

theorem mem_reasons_iff {gate : Gate} {reason : Objection} :
    reason ∈ gate.reasons ↔ gate.Warrants reason := by
  unfold reasons
  cases reason <;> simp [Warrants, Objection.count?, and_comm]

theorem nodup_reasons (gate : Gate) : gate.reasons.Nodup := by
  have hcounted : [Objection.unterminatedBodies gate.unterminated,
      .duplicateDefinitions gate.duplicates, .writeFailures gate.writeFailures,
      .unbalancedDestinations gate.unbalanced, .orphanedCode gate.orphaned].Nodup := by
    simp
  unfold reasons
  refine List.nodup_append.mpr ⟨hcounted.filter _, ?_, ?_⟩
  · cases gate.lossy <;> simp
  · cases gate.lossy <;> simp

end Gate

namespace Summary

/-- The number of files that could not be written. -/
def failedFiles (summary : Summary) : Nat :=
  summary.files.countP fun file => file.status = .failed

/-- What the gate should have seen, as the other parts of the summary tell it; `lossy` says whether
the input is not UTF-8. -/
def gate (summary : Summary) (lossy : Bool) : Gate where
  unterminated := tally .unterminatedBody summary.diagnostics
  duplicates := tally .duplicate summary.diagnostics
  writeFailures := summary.failedFiles
  unbalanced := tally .unbalanced summary.diagnostics
  orphaned := tally .orphanedCode summary.diagnostics
  lossy

/-- All numbers of the summary agree; `lossy` says whether the input is not UTF-8. -/
structure IsConsistent (summary : Summary) (lossy : Bool) : Prop where
  candidates : summary.counts.candidates =
    summary.counts.extracted + summary.counts.nested + summary.counts.unterminated
  extracted : summary.counts.extracted =
    summary.counts.duplicates + (summary.files.map fun file => file.functions.length).sum
  unterminated : tally .unterminatedBody summary.diagnostics = summary.counts.unterminated
  unrecognized : tally .unrecognizedShape summary.diagnostics = summary.counts.unrecognized
  defaulted : tally .defaulted summary.diagnostics = summary.counts.defaulted
  duplicates : tally .duplicate summary.diagnostics = summary.counts.duplicates
  writeFailures : tally .writeFailure summary.diagnostics =
    summary.failedFiles + if summary.outcome.isFailed then 1 else 0
  /-- The reasons are listed once each, with the number of warnings that they stand for. -/
  withheld : ∀ reasons, summary.outcome = .withheld reasons →
    reasons.Nodup ∧ (∀ reason, reason ∈ reasons ↔ (summary.gate lossy).Warrants reason) ∧
      summary.failedFiles = tally .writeFailure summary.diagnostics
  /-- The input is withheld exactly if it has definitions, there is a reason, and nobody forces. -/
  gated : summary.outcome.isWithheld ↔
    summary.forced = false ∧ summary.counts.extracted ≠ 0 ∧
      ∃ reason, (summary.gate lossy).Warrants reason
  exitCode : summary.exitCode false = 0 ↔
    summary.counts.unterminated = 0 ∧ summary.counts.duplicates = 0 ∧
      (∀ file ∈ summary.files, file.status ≠ .failed) ∧
      tally .unbalanced summary.diagnostics = 0 ∧
      summary.outcome.isWithheld = false ∧ summary.outcome.isFailed = false

theorem exitCode_eq_zero_iff (summary : Summary) :
    summary.exitCode false = 0 ↔
      (summary.outcome.isWithheld = false ∧ summary.outcome.isFailed = false) ∧
        ∀ problem ∈ Diagnostic.errors, tally problem summary.diagnostics = 0 := by
  have hhandled : summary.inputHandled = true ↔
      summary.outcome.isWithheld = false ∧ summary.outcome.isFailed = false := by
    unfold inputHandled
    cases summary.outcome <;> simp [InputOutcome.isWithheld, InputOutcome.isFailed]
  rw [← hhandled, ← Diagnostic.countOf_error_eq_zero_iff]
  simp [exitCode, isSuccess]

theorem failedFiles_eq_zero_iff {summary : Summary} :
    summary.failedFiles = 0 ↔ ∀ file ∈ summary.files, file.status ≠ .failed := by
  simp [failedFiles, List.countP_eq_zero]

end Summary

namespace FileTree

/-- The input failed exactly if there is a warning that it could not be replaced. -/
theorem length_replacementDiagnostics (tree : FileTree) (plan : Plan) (decision : Decision) :
    (plan.replacementDiagnostics (tree.replaceInput plan decision).1).length =
      if (Plan.outcome decision (tree.replaceInput plan decision).1).isFailed then 1 else 0 := by
  cases decision with
  | replace text =>
      cases hattempt : (tree.replaceInput plan (.replace text)).1 with
      | planned => rfl
      | done status => cases status <;> rfl
      | failed error => rfl
  | nothing => rfl
  | withhold reasons => rfl
  | onlyPlan => rfl

end FileTree

namespace Plan

variable {plan : Plan} {results : List FileResult}

theorem gate_summary (hfiles : results.map FileResult.file = plan.files) (attempt : Attempt) :
    (plan.summary results attempt).gate plan.survey.source.lossy = plan.gate results := by
  have hfailed : (plan.summary results attempt).failedFiles = (plan.gate results).writeFailures :=
    List.countP_map
  unfold Summary.gate
  rw [hfailed]
  simp [tally_summary hfiles, counts, gate]

/-- The input is withheld with the reasons of the gate, or is not withheld. -/
theorem withheld_cases (plan : Plan) (results : List FileResult) (attempt : Attempt) :
    (plan.survey.job.force = false ∧ plan.definitions ≠ [] ∧ (plan.gate results).reasons ≠ [] ∧
      outcome (plan.decide results) attempt = .withheld (plan.gate results).reasons) ∨
    (¬(plan.survey.job.force = false ∧ plan.definitions ≠ [] ∧ (plan.gate results).reasons ≠ []) ∧
      (outcome (plan.decide results) attempt).isWithheld = false) := by
  obtain ⟨hnone, hdecide⟩ | ⟨hne, hforce, hreasons, hdecide⟩ | ⟨hne, hgate, hdecide⟩ :=
    plan.decide_cases results
  · exact .inr ⟨fun h => h.2.1 hnone, by rw [hdecide]; rfl⟩
  · exact .inl ⟨hforce, hne, hreasons, by rw [hdecide]; rfl⟩
  · refine .inr ⟨fun h => h.2.2 (hgate.resolve_left (by simp [h.1])), ?_⟩
    rw [hdecide]
    cases plan.survey.job.dryRun with
    | true => rfl
    | false =>
        cases attempt with
        | planned => rfl
        | done status => cases status <;> rfl
        | failed error => rfl

theorem sum_length_functions (hfiles : results.map FileResult.file = plan.files) :
    ((results.map FileResult.report).map fun file => file.functions.length).sum =
      (plan.grouping.destinations.map fun destination => destination.definitions.length).sum := by
  have hreports : (results.map FileResult.report).map (fun file => file.functions.length) =
      (results.map FileResult.file).map fun file => file.destination.definitions.length := by
    simp [FileResult.report, Destination.memberNames]
  rw [hreports, hfiles, files, List.map_map]
  rfl

@[simp] theorem counts_summary (results : List FileResult) (attempt : Attempt) :
    (plan.summary results attempt).counts = plan.counts := rfl

@[simp] theorem outcome_summary (results : List FileResult) (attempt : Attempt) :
    (plan.summary results attempt).outcome = outcome (plan.decide results) attempt := rfl

/-- The summary of a plan agrees with itself, if the attempt to replace the input is the one that
the plan has decided about. -/
theorem isConsistent_summary (hfiles : results.map FileResult.file = plan.files)
    {attempt : Attempt} (hattempt : (plan.replacementDiagnostics attempt).length =
      if (outcome (plan.decide results) attempt).isFailed then 1 else 0) :
    (plan.summary results attempt).IsConsistent plan.survey.source.lossy := by
  have htally {problem : Problem} (hproblem : problem ≠ .remark) :=
    tally_summary hfiles attempt hproblem
  have hgate := gate_summary hfiles attempt
  have hfailures : tally .writeFailure (plan.summary results attempt).diagnostics =
      (plan.summary results attempt).failedFiles +
        if (plan.summary results attempt).outcome.isFailed then 1 else 0 := by
    rw [htally (by simp), ← hgate, outcome_summary, ← hattempt]
    simp [Summary.gate]
  have hunterminated : tally .unterminatedBody (plan.summary results attempt).diagnostics =
      (plan.summary results attempt).counts.unterminated := by
    simp [htally]
  have hduplicates : tally .duplicate (plan.summary results attempt).diagnostics =
      (plan.summary results attempt).counts.duplicates := by
    simp [htally]
  refine
    { candidates := plan.survey.extraction.length_candidates
      extracted := ?extracted
      unterminated := hunterminated
      unrecognized := by simp [htally]
      defaulted := by simp [htally]
      duplicates := hduplicates
      writeFailures := hfailures
      withheld := ?withheld
      gated := ?gated
      exitCode := ?exitCode }
  case extracted =>
    have hlength := Grouping.length_eq plan.namer plan.preamble plan.classified
    rw [classified, List.length_map] at hlength
    refine hlength.trans ((Nat.add_comm _ _).trans ?_)
    exact congrArg _ (sum_length_functions hfiles).symm
  case withheld =>
    intro reasons houtcome
    obtain ⟨-, -, -, hwithheld⟩ | ⟨-, hkept⟩ := plan.withheld_cases results attempt
    · obtain rfl := InputOutcome.withheld.inj (hwithheld.symm.trans houtcome)
      rw [hgate, hfailures, houtcome]
      exact ⟨Gate.nodup_reasons _, fun _ => Gate.mem_reasons_iff, rfl⟩
    · rw [outcome_summary] at houtcome
      rw [houtcome] at hkept
      cases hkept
  case gated =>
    have hreasons : (∃ reason, (plan.gate results).Warrants reason) ↔
        (plan.gate results).reasons ≠ [] := by
      simp [← Gate.mem_reasons_iff, List.eq_nil_iff_forall_not_mem]
    have hextracted : plan.counts.extracted ≠ 0 ↔ plan.definitions ≠ [] := by
      simp [counts]
    rw [hgate, hreasons, outcome_summary, counts_summary, hextracted]
    obtain ⟨hforce, hne, hnonempty, hwithheld⟩ | ⟨hnot, hkept⟩ :=
      plan.withheld_cases results attempt
    · rw [hwithheld]
      exact ⟨fun _ => ⟨hforce, hne, hnonempty⟩, fun _ => rfl⟩
    · rw [hkept]
      exact ⟨fun h => absurd h (by simp), fun h => absurd h hnot⟩
  case exitCode =>
    rw [Summary.exitCode_eq_zero_iff, ← Summary.failedFiles_eq_zero_iff]
    simp only [Diagnostic.errors, List.forall_mem_cons, hfailures, hunterminated, hduplicates]
    refine ⟨?_, ?_⟩
    · rintro ⟨⟨hkept, hdone⟩, hbodies, hwritten, hrepetitions, hbraces, -⟩
      exact ⟨hbodies, hrepetitions, (Nat.add_eq_zero_iff.mp hwritten).1, hbraces, hkept, hdone⟩
    · rintro ⟨hbodies, hrepetitions, hwritten, hbraces, hkept, hdone⟩
      refine ⟨⟨hkept, hdone⟩, hbodies, ?_, hrepetitions, hbraces, by simp⟩
      rw [hwritten, hdone]
      rfl

end Plan

namespace FileTree

/-- The numbers of a summary agree, whatever the run has met. -/
theorem isConsistent_of_run {tree : FileTree} {job : Job} {summary : Summary}
    (h : (tree.run job).outcome = .ok summary) :
    ∃ bytes, tree.read job.input = .ok bytes ∧ summary.forced = job.force ∧
      summary.IsConsistent (!Utf8.isValid bytes) := by
  cases hplan : Plan.ofJob tree.read job with
  | error failure => simp [run, hplan] at h
  | ok plan =>
      rw [run_of_plan hplan] at h
      obtain rfl := Except.ok.inj h
      have hsurveys := Plan.surveys_of_ofJob hplan
      obtain ⟨bytes, hread, -, hlossy⟩ := SourceFile.read_eq_ok hsurveys.source_eq
      refine ⟨bytes, hread, congrArg Job.force hsurveys.job_eq, ?_⟩
      rw [← hlossy]
      exact Plan.isConsistent_summary (tree.map_file_writeFiles plan)
        (length_replacementDiagnostics _ plan _)

/-- A source with a repetition, stray code, an odd signature and a body that is not closed. -/
def manyProblems : FileTree :=
  ofFile "Foo.cpp"
    "void Foo::a() {}\nvoid Foo::a() {}\nint stray;\nFoo::odd;\nvoid Foo::b() \x7b\n"

/-- The summary of a run on that source, which has to leave it alone. -/
def manyProblemsSummary : { summary : Summary //
    (manyProblems.run { input := "Foo.cpp" }).outcome = .ok summary ∧
      summary.outcome = .withheld
        [.unterminatedBodies 1, .duplicateDefinitions 1, .orphanedCode 1] } :=
  ⟨_, RunResult.outcome_eq_ok (by decide +kernel), by decide +kernel⟩

theorem isConsistent_of_run_many_problems :
    ∃ summary, (manyProblems.run { input := "Foo.cpp" }).outcome = .ok summary ∧
      summary.outcome = .withheld
        [.unterminatedBodies 1, .duplicateDefinitions 1, .orphanedCode 1] ∧
      ∃ bytes, manyProblems.read "Foo.cpp" = .ok bytes ∧ summary.forced = false ∧
        summary.IsConsistent (!Utf8.isValid bytes) := by
  obtain ⟨summary, hok, hwithheld⟩ := manyProblemsSummary
  exact ⟨summary, hok, hwithheld, isConsistent_of_run hok⟩

end FileTree

end MemberSplit
