import MemberSplit.Proofs.Destination.Relabel
import MemberSplit.Proofs.Run.Consistency

/-!
# Helper names only silence warnings

A definition that no rule claims is a helper anyway, so to name it as one changes the rule that it
is classified by and nothing else. Main statement: runs that differ in the helper names only do the
same to all files and tell the same, but for the warnings about definitions that no rule claims, of
which there are no more where more names are given.
-/

namespace MemberSplit

open Diagnostic (tally)

/-- The job with other helper names. -/
def Job.withHelpers (job : Job) (names : NameSet) : Job :=
  { job with config := { job.config with helperFunctions := names } }

/-- All but the warnings about definitions that no rule claims. -/
def Diagnostic.withoutDefaults (diagnostics : List Diagnostic) : List Diagnostic :=
  diagnostics.filter fun diagnostic => diagnostic.problem ≠ .defaulted

theorem Diagnostic.withoutDefaults_append (first second : List Diagnostic) :
    withoutDefaults (first ++ second) = withoutDefaults first ++ withoutDefaults second :=
  List.filter_append first second

/-- What the summary tells apart from definitions that no rule claims. -/
def Summary.withoutDefaults (summary : Summary) : Summary :=
  { summary with
    counts := { summary.counts with defaulted := 0 }
    diagnostics := Diagnostic.withoutDefaults summary.diagnostics }

namespace RunResult

/-- The number of warnings about definitions that no rule claims. -/
def defaults (result : RunResult) : Nat :=
  match result.outcome with
  | .ok summary => tally .defaulted summary.diagnostics
  | .error _ => 0

/-- Two runs do the same and tell the same, but for definitions that no rule claims. -/
structure AgreesButForDefaults (first second : RunResult) : Prop where
  outcome : first.outcome.map Summary.withoutDefaults = second.outcome.map Summary.withoutDefaults
  exitCode : (first.outcome.map fun summary => summary.exitCode false) =
    second.outcome.map fun summary => summary.exitCode false
  tree : first.tree = second.tree

end RunResult

/-- Warnings have no part in the exit code, unless it is a strict one. -/
theorem Summary.exitCode_withoutDefaults (summary : Summary) :
    summary.withoutDefaults.exitCode false = summary.exitCode false := by
  have herrors : Diagnostic.countOf .error summary.withoutDefaults.diagnostics =
      Diagnostic.countOf .error summary.diagnostics := by
    simp only [Diagnostic.countOf, withoutDefaults, Diagnostic.withoutDefaults,
      List.countP_filter]
    refine List.countP_congr fun diagnostic _ => ?_
    cases diagnostic <;> simp [Diagnostic.severity, Diagnostic.problem]
  simp only [exitCode, isSuccess, herrors]
  rfl

namespace Config

variable {config : Config} {first second : NameSet} {definition : Definition}

/-- The group and the rule of a definition that a rule claims before helper names are looked at. -/
def claim? (config : Config) (definition : Definition) : Option (Group × Rule) :=
  if names config.coreMatch config.coreFunctions definition then some (.core, .coreAllowlist)
  else (if definition.name = config.dispatchMethod then definition.baseType? else none).map
    fun key =>
      if config.excludes key then (.helper, .dispatchExcluded)
      else (.dispatch key, .dispatchVariant)

/-- What no rule claims before is a helper, whether it is named as one or not. -/
theorem classify_eq (config : Config) (definition : Definition) :
    config.classify definition = (config.claim? definition).getD
      (.helper, if names .exact config.helperFunctions definition then .explicitHelper
        else .default) := by
  unfold classify claim?
  split
  next => rfl
  next =>
    simp only
    split
    next key hkey => rw [hkey]; rfl
    next hkey =>
      rw [hkey]
      split <;> rfl

/-- Helper names make no difference to the group of a definition. -/
theorem group_classify_helpers (config : Config) (helpers : NameSet) (definition : Definition) :
    ({ config with helperFunctions := helpers }.classify definition).1 =
      (config.classify definition).1 := by
  have hclaim : { config with helperFunctions := helpers }.claim? definition =
      config.claim? definition := rfl
  rw [classify_eq, classify_eq, hclaim]
  cases config.claim? definition <;> rfl

/-- The rules of the configuration, for definitions that are in their groups. -/
def ruleOf (config : Config) (classified : Classified) : Rule :=
  (config.classify classified.definition).2

theorem classified_helpers (config : Config) (helpers : NameSet) (definition : Definition) :
    { config with helperFunctions := helpers }.classified definition =
      (config.classified definition).relabel
        { config with helperFunctions := helpers }.ruleOf := by
  have hgroup := group_classify_helpers config helpers definition
  simp only [classified, Classified.relabel, ruleOf, hgroup]

theorem names_mono {mode : NameMatch} (hsub : ∀ name ∈ first, name ∈ second)
    (h : names mode first definition = true) : names mode second definition = true := by
  obtain ⟨name, hname, hmatch⟩ := List.any_eq_true.mp h
  exact List.any_eq_true.mpr ⟨name, hsub name hname, hmatch⟩

/-- What no rule claims although more helpers are named, no rule claims without them. -/
theorem rule_eq_default_of_helpers (hsub : ∀ name ∈ first, name ∈ second)
    (h : ({ config with helperFunctions := second }.classify definition).2 = .default) :
    ({ config with helperFunctions := first }.classify definition).2 = .default := by
  have hclaim : ∀ helpers, { config with helperFunctions := helpers }.claim? definition =
      config.claim? definition := fun _ => rfl
  rw [classify_eq, hclaim] at h ⊢
  cases hrest : config.claim? definition with
  | some claim => rwa [hrest] at h
  | none =>
      rw [hrest] at h
      simp only [Option.getD_none] at h ⊢
      split at h
      next => cases h
      next hnone => exact if_neg fun hfirst => hnone (names_mono hsub hfirst)

end Config

namespace Plan

/-- The plan with other helper names. -/
def withHelpers (plan : Plan) (names : NameSet) : Plan :=
  plan.withJob (plan.survey.job.withHelpers names)

theorem ofJob_withHelpers (read : Reader) (job : Job) (names : NameSet) :
    ofJob read (job.withHelpers names) =
      (ofJob read job).map fun plan => plan.withHelpers names := by
  have halike : AreAlike job (job.withHelpers names) := ⟨rfl, rfl, rfl, rfl, rfl⟩
  rw [ofJob_eq_map_withJob halike]
  cases hplan : ofJob read job with
  | error failure => rfl
  | ok plan =>
      have hjob := (surveys_of_ofJob hplan).job_eq
      simp only [Except.map, withHelpers, hjob]

variable {plan : Plan} {names : NameSet}

theorem classified_withHelpers (plan : Plan) (names : NameSet) :
    (plan.withHelpers names).classified =
      plan.classified.map (Classified.relabel (plan.withHelpers names).config.ruleOf) := by
  unfold classified
  rw [List.map_map]
  exact List.map_congr_left fun definition _ =>
    Config.classified_helpers plan.config names definition

theorem destinations_withHelpers (plan : Plan) (names : NameSet) :
    (plan.withHelpers names).grouping.destinations = plan.grouping.destinations := by
  unfold grouping
  rw [classified_withHelpers]
  exact Grouping.destinations_relabel _ plan.namer plan.preamble plan.classified

theorem repetitions_withHelpers (plan : Plan) (names : NameSet) :
    (plan.withHelpers names).grouping.repetitions = plan.grouping.repetitions.map
      (Repetition.relabel (plan.withHelpers names).config.ruleOf) := by
  unfold grouping
  rw [classified_withHelpers]
  exact Grouping.repetitions_ofClassified_relabel _ plan.namer plan.preamble plan.classified

theorem files_withHelpers (plan : Plan) (names : NameSet) :
    (plan.withHelpers names).files = plan.files := by
  unfold files
  rw [destinations_withHelpers]
  rfl

theorem gate_withHelpers (plan : Plan) (names : NameSet) (results : List FileResult) :
    (plan.withHelpers names).gate results = plan.gate results := by
  unfold gate
  rw [destinations_withHelpers, repetitions_withHelpers, List.length_map]
  rfl

theorem decide_withHelpers (plan : Plan) (names : NameSet) (results : List FileResult) :
    (plan.withHelpers names).decide results = plan.decide results := by
  have haggregator : (plan.withHelpers names).aggregator = plan.aggregator := by
    unfold aggregator
    rw [files_withHelpers]
    rfl
  unfold decide
  rw [gate_withHelpers, haggregator]
  rfl

/-- Where the warnings about definitions that no rule claims are left out, none is left. -/
theorem withoutDefaults_defaultDiagnostic? (config : Config) (list : List Classified) :
    Diagnostic.withoutDefaults (list.filterMap config.defaultDiagnostic?) = [] := by
  refine List.filter_eq_nil_iff.mpr fun diagnostic hmem => ?_
  obtain ⟨classified, -, hsome⟩ := List.mem_filterMap.mp hmem
  simpa using Config.problem_of_mem_defaultDiagnostic? classified diagnostic hsome

theorem diagnostics_withHelpers (plan : Plan) (names : NameSet) :
    Diagnostic.withoutDefaults (plan.withHelpers names).diagnostics =
      Diagnostic.withoutDefaults plan.diagnostics := by
  have hrepetitions : (plan.withHelpers names).grouping.repetitions.map Repetition.diagnostic =
      plan.grouping.repetitions.map Repetition.diagnostic := by
    rw [repetitions_withHelpers, List.map_map]
    rfl
  simp only [diagnostics, Diagnostic.withoutDefaults_append, withoutDefaults_defaultDiagnostic?,
    hrepetitions]
  rfl

theorem counts_withHelpers (plan : Plan) (names : NameSet) :
    { (plan.withHelpers names).counts with defaulted := 0 } =
      { plan.counts with defaulted := 0 } := by
  simp only [counts, repetitions_withHelpers, List.length_map]
  rfl

theorem summary_withHelpers (plan : Plan) (names : NameSet) (results : List FileResult)
    (attempt : Attempt) :
    ((plan.withHelpers names).summary results attempt).withoutDefaults =
      (plan.summary results attempt).withoutDefaults := by
  have hcounts := plan.counts_withHelpers names
  have hdiagnostics := plan.diagnostics_withHelpers names
  simp only [Summary.withoutDefaults, summary, Diagnostic.withoutDefaults_append]
  rw [hcounts, hdiagnostics, decide_withHelpers]
  rfl

/-- With more helper names, no more definitions are claimed by no rule. -/
theorem defaulted_withHelpers_le {first second : NameSet} (plan : Plan)
    (hsub : ∀ name ∈ first, name ∈ second) :
    (plan.withHelpers second).counts.defaulted ≤ (plan.withHelpers first).counts.defaulted := by
  simp only [counts, classified, List.countP_map]
  refine List.countP_mono_left fun definition _ h => ?_
  exact decide_eq_true (Config.rule_eq_default_of_helpers hsub (of_decide_eq_true h))

end Plan

namespace FileTree

variable {tree : FileTree} {job : Job} {plan : Plan}

theorem run_withHelpers (hplan : Plan.ofJob tree.read job = .ok plan) (names : NameSet) :
    tree.run (job.withHelpers names) = tree.carryOut (plan.withHelpers names) := by
  apply run_of_plan
  rw [Plan.ofJob_withHelpers, hplan]
  rfl

theorem writeFiles_withHelpers (tree : FileTree) (plan : Plan) (names : NameSet) :
    tree.writeFiles (plan.withHelpers names) = tree.writeFiles plan := by
  unfold writeFiles
  rw [Plan.files_withHelpers]
  rfl

/-- With other helper names a plan is carried out in the same way. -/
theorem carryOut_withHelpers (tree : FileTree) (plan : Plan) (names : NameSet) :
    (tree.carryOut (plan.withHelpers names)).AgreesButForDefaults (tree.carryOut plan) := by
  have houtcome : (tree.carryOut (plan.withHelpers names)).outcome.map Summary.withoutDefaults =
      (tree.carryOut plan).outcome.map Summary.withoutDefaults := by
    simp only [carryOut, writeFiles_withHelpers, Plan.decide_withHelpers, Except.map,
      Plan.summary_withHelpers]
    rfl
  have hexit : ∀ result : RunResult, (result.outcome.map fun summary => summary.exitCode false) =
      (result.outcome.map Summary.withoutDefaults).map fun summary => summary.exitCode false := by
    intro result
    cases result.outcome with
    | error failure => rfl
    | ok summary => exact congrArg Except.ok summary.exitCode_withoutDefaults.symm
  refine ⟨houtcome, ?_, ?_⟩
  · rw [hexit, hexit, houtcome]
  · rw [tree_carryOut, tree_carryOut, writeFiles_withHelpers, Plan.decide_withHelpers]
    rfl

theorem defaults_carryOut (tree : FileTree) (plan : Plan) :
    (tree.carryOut plan).defaults = plan.counts.defaulted := by
  have hproblem : Problem.defaulted ≠ .remark := nofun
  obtain ⟨attempt, hattempt⟩ : ∃ attempt, (tree.carryOut plan).outcome =
      .ok (plan.summary (tree.writeFiles plan).1 attempt) := ⟨_, rfl⟩
  simp only [RunResult.defaults, hattempt]
  simpa using Plan.tally_summary (tree.map_file_writeFiles plan) attempt hproblem

/-- Runs that differ in the helper names only agree but for the warnings about definitions that no
rule claims, and more names give no more such warnings. -/
theorem agreesButForDefaults_of_helpers (tree : FileTree) (job : Job) (first second : NameSet) :
    (tree.run (job.withHelpers first)).AgreesButForDefaults
        (tree.run (job.withHelpers second)) ∧
      ((∀ name ∈ first, name ∈ second) →
        (tree.run (job.withHelpers second)).defaults ≤
          (tree.run (job.withHelpers first)).defaults) := by
  cases hplan : Plan.ofJob tree.read job with
  | error failure =>
      have hrun : ∀ names, tree.run (job.withHelpers names) = tree.run job := by
        intro names
        unfold run
        rw [Plan.ofJob_withHelpers, hplan]
        rfl
      rw [hrun, hrun]
      exact ⟨⟨rfl, rfl, rfl⟩, fun _ => Nat.le_refl _⟩
  | ok plan =>
      rw [run_withHelpers hplan, run_withHelpers hplan]
      obtain ⟨houtcome, hexit, htree⟩ := carryOut_withHelpers tree plan first
      obtain ⟨houtcome', hexit', htree'⟩ := carryOut_withHelpers tree plan second
      refine ⟨⟨houtcome.trans houtcome'.symm, hexit.trans hexit'.symm,
        htree.trans htree'.symm⟩, fun hsub => ?_⟩
      rw [defaults_carryOut, defaults_carryOut]
      exact plan.defaulted_withHelpers_le hsub

theorem agreesButForDefaults_of_helpers_one_named :
    let tree := ofFile "Foo.cpp" "void Foo::first() {}\nvoid Foo::second() {}\n"
    let unnamed := tree.run (({ input := "Foo.cpp" } : Job).withHelpers NameSet.empty)
    let named := tree.run (({ input := "Foo.cpp" } : Job).withHelpers (NameSet.ofList ["first"]))
    (∀ name ∈ NameSet.empty, name ∈ NameSet.ofList ["first"]) ∧
      unnamed.AgreesButForDefaults named ∧ unnamed.outcome.isOk ∧
      named.defaults ≤ unnamed.defaults ∧ named.defaults = 1 ∧ unnamed.defaults = 2 := by
  intro tree unnamed named
  have hsub : ∀ name ∈ NameSet.empty, name ∈ NameSet.ofList ["first"] := fun name hname =>
    absurd hname List.not_mem_nil
  obtain ⟨hagrees, hle⟩ := agreesButForDefaults_of_helpers tree { input := "Foo.cpp" }
    NameSet.empty (NameSet.ofList ["first"])
  exact ⟨hsub, hagrees, by decide +kernel, hle hsub, by decide +kernel, by decide +kernel⟩

end FileTree

end MemberSplit
