import MemberSplit.FileTree.Contents
import MemberSplit.Run.Basic

/-!
# The steps of a run

A run either fails while it is planned, and then changes nothing, or carries out its plan: it writes
the files, decides about the input from how that went, and acts on the decision. What a decision can
be is said here once.
-/

namespace MemberSplit

/-- What became of the input, if the run did not fail. -/
def RunResult.inputOutcome? (result : RunResult) : Option InputOutcome :=
  match result.outcome with
  | .ok summary => some summary.outcome
  | .error _ => none

theorem RunResult.outcome_eq_ok {result : RunResult}
    (h : result.outcome.toOption.isSome = true) :
    result.outcome = .ok (result.outcome.toOption.get h) := by
  revert h
  cases result.outcome with
  | ok summary => exact fun _ => rfl
  | error failure => exact fun h => absurd h (by simp [Except.toOption])

/-- The gate has no reason exactly if all of its counts are zero and the input is UTF-8. -/
theorem Gate.reasons_eq_nil_iff {gate : Gate} :
    gate.reasons = [] ↔ gate.unterminated = 0 ∧ gate.duplicates = 0 ∧ gate.writeFailures = 0 ∧
      gate.unbalanced = 0 ∧ gate.orphaned = 0 ∧ gate.lossy = false := by
  simp only [reasons, List.append_eq_nil_iff, List.filter_eq_nil_iff]
  cases gate.lossy <;> simp [Objection.count?]

theorem SourceFile.read_eq_ok {read : Reader} {path : Path} {source : SourceFile}
    (h : SourceFile.read read path = .ok source) :
    ∃ bytes, read path = .ok bytes ∧ source.text = Utf8.decodeLossy bytes ∧
      source.lossy = !Utf8.isValid bytes := by
  unfold SourceFile.read at h
  split at h
  next => simp at h
  next bytes hbytes =>
    obtain rfl := Except.ok.inj h
    exact ⟨bytes, hbytes, rfl, rfl⟩

namespace Plan

/-- What a plan is made from: the job with a configuration that makes sense, the input as it was
read, and what was extracted from its text. -/
structure Surveys (read : Reader) (job : Job) (plan : Plan) : Prop where
  job_eq : plan.survey.job = job
  check_eq : job.config.check = .ok ()
  source_eq : SourceFile.read read job.input = .ok plan.survey.source
  owner_eq : job.config.ownerFor job.input = .ok plan.survey.owner
  extraction_eq : plan.survey.extraction =
    (Survey.extractor job.config plan.survey.owner).extract plan.survey.source.text

namespace Surveys

variable {read : Reader} {job : Job} {plan : Plan}

theorem input_eq (h : Surveys read job plan) : plan.input = job.input :=
  congrArg Job.input h.job_eq

theorem config_eq (h : Surveys read job plan) : plan.config = job.config :=
  congrArg Job.config h.job_eq

theorem dryRun_eq (h : Surveys read job plan) : plan.survey.job.dryRun = job.dryRun :=
  congrArg Job.dryRun h.job_eq

end Surveys

/-- The header does not enter the survey. -/
theorem survey_eq_of_make {read : Reader} {survey : Survey} {plan : Plan}
    (h : make read survey = .ok plan) : plan.survey = survey := by
  unfold make at h
  simp only at h
  split at h
  next => exact (congrArg Plan.survey (Except.ok.inj h)).symm
  next path hpath =>
    cases hcheck : HeaderCheck.make read survey.owner path with
    | error failure => simp [hcheck, Except.map] at h
    | ok check =>
        rw [hcheck] at h
        exact (congrArg Plan.survey (Except.ok.inj h)).symm

theorem surveys_of_make {read : Reader} {job : Job} {survey : Survey}
    (h : Survey.make read job = .ok survey) (header : Option HeaderCheck) :
    Surveys read job { survey, header } := by
  unfold Survey.make at h
  split at h
  next => simp at h
  next checked hcheck =>
    split at h
    next => simp at h
    next source hsource =>
      split at h
      next => simp at h
      next owner howner =>
        obtain rfl := Except.ok.inj h
        exact ⟨rfl, hcheck, hsource, howner, rfl⟩

theorem surveys_of_ofJob {read : Reader} {job : Job} {plan : Plan}
    (h : ofJob read job = .ok plan) : Surveys read job plan := by
  unfold ofJob at h
  split at h
  next => simp at h
  next survey hsurvey =>
    split at h
    next => simp at h
    next made hmade =>
      obtain rfl : made = plan := Except.ok.inj h
      have hplan := survey_eq_of_make hmade
      subst hplan
      exact surveys_of_make hsurvey made.header

/-- The plan with another job in place of its own. -/
def withJob (plan : Plan) (job : Job) : Plan :=
  { plan with survey := { plan.survey with job } }

/-- All that a plan is made from is the same in both jobs. -/
structure AreAlike (job other : Job) : Prop where
  input_eq : other.input = job.input
  declarations_eq : other.declarations = job.declarations
  check_eq : other.config.check = job.config.check
  ownerFor_eq : other.config.ownerFor = job.config.ownerFor
  extractor_eq : Survey.extractor other.config = Survey.extractor job.config

/-- Jobs that are alike have the same plan, but for the job in it. -/
theorem ofJob_eq_map_withJob {job other : Job} (h : AreAlike job other) (read : Reader) :
    ofJob read other = (ofJob read job).map fun plan => plan.withJob other := by
  have hsurvey : Survey.make read other =
      (Survey.make read job).map fun survey => { survey with job := other } := by
    unfold Survey.make
    simp only [h.input_eq, h.check_eq, h.ownerFor_eq, h.extractor_eq]
    cases job.config.check with
    | error problem => rfl
    | ok checked =>
        cases SourceFile.read read job.input with
        | error failure => rfl
        | ok source => cases job.config.ownerFor job.input <;> rfl
  unfold ofJob
  rw [hsurvey]
  cases hmake : Survey.make read job with
  | error failure => rfl
  | ok survey =>
      have hjob : survey.job = job := (surveys_of_make hmake none).job_eq
      have hlog : ({ survey with job := other } : Survey).log = survey.log := by
        simp only [Survey.log, h.input_eq, hjob]
      simp only [Except.map]
      unfold make
      simp only [h.declarations_eq, h.input_eq, hjob, hlog]
      cases job.declarations.or (Header.infer? read job.input) with
      | none => rfl
      | some path =>
          simp only
          cases HeaderCheck.make read survey.owner path <;> rfl

/-- What can be decided about the input, and when. -/
theorem decide_cases (plan : Plan) (results : List FileResult) :
    (plan.definitions = [] ∧ plan.decide results = .nothing) ∨
    (plan.definitions ≠ [] ∧ plan.survey.job.force = false ∧ (plan.gate results).reasons ≠ [] ∧
      plan.decide results = .withhold (plan.gate results).reasons) ∨
    (plan.definitions ≠ [] ∧
      (plan.survey.job.force = true ∨ (plan.gate results).reasons = []) ∧
      plan.decide results =
        if plan.survey.job.dryRun then .onlyPlan else .replace plan.aggregator.text) := by
  unfold decide
  cases hdefinitions : plan.definitions with
  | nil => simp
  | cons first rest =>
      cases hreasons : (plan.gate results).reasons with
      | nil => simp
      | cons reason others => cases hforce : plan.survey.job.force <;> simp

theorem decide_eq_nothing {plan : Plan} (h : plan.definitions = []) (results : List FileResult) :
    plan.decide results = .nothing := by
  obtain ⟨-, hdecide⟩ | ⟨hne, -⟩ | ⟨hne, -⟩ := plan.decide_cases results
  · exact hdecide
  · exact absurd h hne
  · exact absurd h hne

/-- If nothing kept the input from being replaced, and nothing was forced, the gate is silent. -/
theorem reasons_eq_nil_of_outcome {plan : Plan} {results : List FileResult} {attempt : Attempt}
    {result : InputOutcome} (hforce : plan.survey.job.force = false)
    (houtcome : outcome (plan.decide results) attempt = result)
    (hresult : result = .replaced ∨ result = .unchanged ∨ result = .planned) :
    plan.definitions ≠ [] ∧ (plan.gate results).reasons = [] := by
  subst houtcome
  obtain ⟨-, hdecide⟩ | ⟨-, -, -, hdecide⟩ | ⟨hdefinitions, hgate, -⟩ :=
    plan.decide_cases results
  · simp [hdecide, outcome] at hresult
  · simp [hdecide, outcome] at hresult
  · exact ⟨hdefinitions, hgate.resolve_left (by simp [hforce])⟩

end Plan

namespace FileTree

/-- A tree with one file, in which runs can be looked at. -/
def ofFile (name text : Text) : FileTree :=
  (ofWorkingDirectory []).putFile [name] (Utf8.encode text) freshMode

theorem tree_carryOut (tree : FileTree) (plan : Plan) :
    (tree.carryOut plan).tree =
      ((tree.writeFiles plan).2.replaceInput plan (plan.decide (tree.writeFiles plan).1)).2 := rfl

theorem inputOutcome?_carryOut (tree : FileTree) (plan : Plan) :
    (tree.carryOut plan).inputOutcome? =
      some (Plan.outcome (plan.decide (tree.writeFiles plan).1)
        ((tree.writeFiles plan).2.replaceInput plan (plan.decide (tree.writeFiles plan).1)).1) :=
  rfl

theorem run_of_plan {tree : FileTree} {job : Job} {plan : Plan}
    (hplan : Plan.ofJob tree.read job = .ok plan) : tree.run job = tree.carryOut plan := by
  simp [run, hplan]

/-- The summary of a run is that of its plan, with the results of its writings. -/
theorem exists_plan_of_outcome {tree : FileTree} {job : Job} {summary : Summary}
    (h : (tree.run job).outcome = .ok summary) :
    ∃ plan attempt, Plan.ofJob tree.read job = .ok plan ∧
      summary = plan.summary (tree.writeFiles plan).1 attempt := by
  cases hplan : Plan.ofJob tree.read job with
  | error failure => simp [run, hplan] at h
  | ok plan =>
      rw [run_of_plan hplan] at h
      exact ⟨plan, _, rfl, (Except.ok.inj h).symm⟩

/-- A run that does not fail carries out its plan. -/
theorem exists_plan_of_inputOutcome? {tree : FileTree} {job : Job} {result : InputOutcome}
    (h : (tree.run job).inputOutcome? = some result) :
    ∃ plan, Plan.ofJob tree.read job = .ok plan ∧
      Plan.outcome (plan.decide (tree.writeFiles plan).1)
        ((tree.writeFiles plan).2.replaceInput plan
          (plan.decide (tree.writeFiles plan).1)).1 = result := by
  cases hplan : Plan.ofJob tree.read job with
  | error failure => simp [run, hplan, RunResult.inputOutcome?] at h
  | ok plan =>
      rw [run_of_plan hplan, inputOutcome?_carryOut] at h
      exact ⟨plan, rfl, Option.some.inj h⟩

/-- Without force, an input is replaced only if there is something to split and the gate is
silent. -/
theorem reasons_eq_nil_of_run {tree : FileTree} {job : Job} {plan : Plan} {result : InputOutcome}
    (hplan : Plan.ofJob tree.read job = .ok plan)
    (h : (tree.run job).inputOutcome? = some result) (hforce : job.force = false)
    (hresult : result = .replaced ∨ result = .unchanged ∨ result = .planned) :
    plan.definitions ≠ [] ∧ (plan.gate (tree.writeFiles plan).1).reasons = [] := by
  rw [run_of_plan hplan, inputOutcome?_carryOut] at h
  have hunforced : plan.survey.job.force = false := by
    rw [(Plan.surveys_of_ofJob hplan).job_eq, hforce]
  exact Plan.reasons_eq_nil_of_outcome hunforced (Option.some.inj h) hresult

end FileTree

end MemberSplit
