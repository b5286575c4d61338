import MemberSplit.Proofs.Run.Failures

/-!
# What a dry run tells

A dry run plans from the same files as the run that it stands for. If nothing fails to be written,
it tells all that the other one tells, except that nothing has been written yet.
-/

namespace MemberSplit

/-- The job without its writes. -/
def Job.dry (job : Job) : Job :=
  { job with dryRun := true }

/-- What a dry run tells of the input for what the real run tells of it. -/
def InputOutcome.foreseen : InputOutcome → InputOutcome
  | .replaced | .unchanged => .planned
  | outcome => outcome

/-- What a dry run tells where the real run ends with the summary. -/
def Summary.foreseen (summary : Summary) : Summary :=
  { summary with
    dryRun := true
    files := summary.files.map fun file => { file with status := .planned }
    outcome := summary.outcome.foreseen }

namespace Plan

/-- The plan for the job without its writes. -/
def dry (plan : Plan) : Plan :=
  { plan with survey := { plan.survey with job := plan.survey.job.dry } }

/-- Whether a run is dry has no part in its plan. -/
theorem ofJob_dry (read : Reader) (job : Job) :
    ofJob read job.dry = (ofJob read job).map dry := by
  have halike : AreAlike job job.dry := ⟨rfl, rfl, rfl, rfl, rfl⟩
  rw [ofJob_eq_map_withJob halike]
  cases hplan : ofJob read job with
  | error failure => rfl
  | ok plan =>
      have hjob := (surveys_of_ofJob hplan).job_eq
      simp only [Except.map, dry, hjob, withJob]

end Plan

/-- The decision of a dry run for the decision of the real one. -/
def Decision.dry : Decision → Decision
  | .replace _ => .onlyPlan
  | decision => decision

namespace Plan

variable {plan : Plan}

theorem decide_dry (hdry : plan.survey.job.dryRun = false) :
    plan.dry.decide [] = (plan.decide []).dry := by
  have hgate : plan.dry.gate [] = plan.gate [] := rfl
  have hdefinitions : plan.dry.definitions = plan.definitions := rfl
  have hforce : plan.dry.survey.job.force = plan.survey.job.force := rfl
  have hdry' : plan.dry.survey.job.dryRun = true := rfl
  unfold decide
  simp only [hgate, hdefinitions, hforce, hdry, hdry']
  split
  next => rfl
  next => split <;> rfl

/-- Unless the attempt failed, the outcome of a dry run follows from that of the real one. -/
theorem outcome_dry {decision : Decision} {attempt : Attempt}
    (h : ∀ message, outcome decision attempt ≠ .failed message) :
    outcome decision.dry .planned = (outcome decision attempt).foreseen := by
  cases decision with
  | nothing => rfl
  | withhold reasons => rfl
  | onlyPlan => rfl
  | replace text =>
      cases attempt with
      | planned => rfl
      | done status => cases status <;> rfl
      | failed error => exact absurd rfl (h error.message)

/-- A dry run tells what the real run tells, if nothing failed in that. -/
theorem summary_dry {results : List FileResult} {attempt : Attempt}
    (hdry : plan.survey.job.dryRun = false) (hfiles : results.map FileResult.file = plan.files)
    (hnone : FileResult.NoFailure results)
    (hinput : ∀ message, outcome (plan.decide results) attempt ≠ .failed message)
    (hattempt : plan.replacementDiagnostics attempt = []) :
    plan.dry.summary (plan.uniform .planned) .planned =
      (plan.summary results attempt).foreseen := by
  have huntried : FileResult.NoFailure (plan.uniform .planned) :=
    plan.noFailure_uniform fun h => nomatch h
  have hreports : (plan.uniform .planned).map FileResult.report =
      (results.map FileResult.report).map fun file => { file with status := .planned } := by
    rw [uniform, ← hfiles, List.map_map, List.map_map, List.map_map]
    rfl
  have houtcome : outcome (plan.dry.decide (plan.uniform .planned)) .planned =
      (outcome (plan.decide results) attempt).foreseen := by
    rw [decide_eq_of_noFailure huntried, decide_dry hdry,
      ← decide_eq_of_noFailure hnone]
    exact outcome_dry hinput
  have hproblems : (plan.uniform .planned).flatMap (FileResult.diagnostics plan.config.scanMode) =
      results.flatMap (FileResult.diagnostics plan.config.scanMode) := by
    rw [huntried.flatMap_diagnostics, hnone.flatMap_diagnostics, hfiles, map_file_uniform]
  unfold summary Summary.foreseen
  rw [hattempt, ← hproblems, ← hreports, ← houtcome]
  rfl

end Plan

namespace FileTree

variable {tree : FileTree} {job : Job} {plan : Plan}

/-- A run that is not dry does not only plan. -/
theorem outcome_ne_planned (tree : FileTree) (hdry : plan.survey.job.dryRun = false)
    (results : List FileResult) :
    Plan.outcome (plan.decide results) (tree.replaceInput plan (plan.decide results)).1 ≠
      .planned := by
  obtain ⟨-, hdecide⟩ | ⟨-, -, -, hdecide⟩ | ⟨-, -, hdecide⟩ := plan.decide_cases results
  · rw [hdecide]
    simp [Plan.outcome]
  · rw [hdecide]
    simp [Plan.outcome]
  · rw [hdecide, hdry, if_neg (by simp)]
    simp only [replaceInput]
    cases hattempt : (tree.attempt plan.input plan.aggregator.text).1 with
    | planned => exact absurd hattempt (attempt_ne_planned _ _ _)
    | done status => cases status <;> simp [Plan.outcome]
    | failed error => simp [Plan.outcome]

/-- An attempt that failed is told as the failure of the input. -/
theorem replacementDiagnostics_eq_nil {decision : Decision}
    (h : ∀ message, Plan.outcome decision (tree.replaceInput plan decision).1 ≠
      .failed message) :
    plan.replacementDiagnostics (tree.replaceInput plan decision).1 = [] := by
  cases decision with
  | replace text =>
      cases hattempt : (tree.replaceInput plan (.replace text)).1 with
      | planned => rfl
      | done status => rfl
      | failed error =>
          rw [hattempt] at h
          exact absurd rfl (h error.message)
  | nothing => rfl
  | withhold reasons => rfl
  | onlyPlan => rfl

theorem run_dry_of_plan (hplan : Plan.ofJob tree.read job = .ok plan) :
    (tree.run job.dry).outcome = .ok (plan.dry.summary (plan.uniform .planned) .planned) := by
  have hplan' : Plan.ofJob tree.read job.dry = .ok plan.dry := by
    rw [Plan.ofJob_dry, hplan]
    rfl
  have hfiles : tree.writeFiles plan.dry = (plan.uniform .planned, tree) :=
    writeFiles_of_dryRun rfl
  have hinput :
      (tree.replaceInput plan.dry (plan.dry.decide (plan.uniform .planned))).1 = .planned := by
    obtain ⟨-, hdecide⟩ | ⟨-, -, -, hdecide⟩ | ⟨-, -, hdecide⟩ :=
      plan.dry.decide_cases (plan.uniform .planned)
    all_goals
      rw [hdecide]
      rfl
  rw [run_of_plan hplan', carryOut, hfiles]
  simp only [hinput]

theorem foreseen_eq_planned_iff {outcome : InputOutcome} (h : outcome ≠ .planned) :
    outcome.foreseen = .planned ↔ outcome = .replaced ∨ outcome = .unchanged := by
  cases outcome with
  | planned => exact absurd rfl h
  | replaced => simp [InputOutcome.foreseen]
  | unchanged => simp [InputOutcome.foreseen]
  | withheld reasons => simp [InputOutcome.foreseen]
  | failed message => simp [InputOutcome.foreseen]
  | nothingToSplit => simp [InputOutcome.foreseen]

/-- A dry run fails as the run that it stands for. If that run neither fails nor tells of a write
that failed, the dry run tells the same, only that its files are planned; so is its input exactly if
the other run replaces it or finds it with its new text. -/
theorem outcome_dry_eq_foreseen (hdry : job.dryRun = false) :
    (∀ failure, (tree.run job.dry).outcome = .error failure ↔
      (tree.run job).outcome = .error failure) ∧
    ∀ summary, (tree.run job).outcome = .ok summary →
      (∀ file ∈ summary.files, file.status ≠ .failed) →
      (∀ message, summary.outcome ≠ .failed message) →
        (tree.run job.dry).outcome = .ok summary.foreseen ∧
        (summary.foreseen.outcome = .planned ↔
          summary.outcome = .replaced ∨ summary.outcome = .unchanged) := by
  cases hplan : Plan.ofJob tree.read job with
  | error failure =>
      have hplan' : Plan.ofJob tree.read job.dry = .error failure := by
        rw [Plan.ofJob_dry, hplan]
        rfl
      simp [run, hplan, hplan']
  | ok plan =>
      have hrun := run_dry_of_plan hplan
      have hdry' := (Plan.surveys_of_ofJob hplan).dryRun_eq.trans hdry
      refine ⟨?_, ?_⟩
      · intro failure
        rw [hrun, run_of_plan hplan]
        simp [carryOut]
      · intro summary hsummary hfiles hinput
        rw [run_of_plan hplan] at hsummary
        obtain rfl := Except.ok.inj hsummary
        have hnone := FileResult.noFailure_of_report hfiles
        refine ⟨?_, ?_⟩
        · rw [hrun, Plan.summary_dry hdry' (tree.map_file_writeFiles plan) hnone hinput
            (replacementDiagnostics_eq_nil hinput)]
          rfl
        · exact foreseen_eq_planned_iff
            ((tree.writeFiles plan).2.outcome_ne_planned hdry' (tree.writeFiles plan).1)

theorem outcome_dry_eq_foreseen_two_files :
    let tree := ofFile "Foo.cpp" "void Foo::a() {}\nvoid Foo::b() {}\n"
    let job : Job := { input := "Foo.cpp", config := { coreFunctions := .ofList ["b"] } }
    ∃ summary, (tree.run job).outcome = .ok summary ∧
      summary.files.map FileReport.status = [.written, .written] ∧
      summary.outcome = .replaced ∧
      (tree.run job.dry).outcome = .ok summary.foreseen ∧
      summary.foreseen.outcome = .planned := by
  intro tree job
  have hfacts : ∀ summary ∈ (tree.run job).outcome.toOption,
      summary.files.map FileReport.status = [.written, .written] ∧
        summary.outcome = .replaced := by
    decide +kernel
  have hok : (tree.run job).outcome.toOption.isSome = true := by decide +kernel
  cases hsummary : (tree.run job).outcome with
  | error failure => simp [hsummary, Except.toOption] at hok
  | ok summary =>
      obtain ⟨hstatuses, hreplaced⟩ := hfacts summary (by rw [hsummary]; rfl)
      obtain ⟨-, hforeseen⟩ := @outcome_dry_eq_foreseen tree job rfl
      have hfiles : ∀ file ∈ summary.files, file.status ≠ .failed := by
        intro file hmem hfailed
        have hstatus := List.mem_map_of_mem (f := FileReport.status) hmem
        simp [hstatuses, hfailed] at hstatus
      obtain ⟨hdry, hplanned⟩ := hforeseen summary hsummary hfiles (by simp [hreplaced])
      exact ⟨summary, rfl, hstatuses, hreplaced, hdry, hplanned.mpr (.inl hreplaced)⟩

end FileTree

end MemberSplit
