import MemberSplit.Proofs.Run.Writings

/-!
# Results without failures

What a run makes of its files enters its gate and its diagnostics only by the failures. So two runs
of one plan without a failure decide alike and warn of the same.
-/

namespace MemberSplit

namespace FileResult

/-- All files that were tried could be written. -/
def NoFailure (results : List FileResult) : Prop :=
  ∀ result ∈ results, result.attempt.status ≠ .failed

variable {results : List FileResult}

theorem noFailure_of_report (h : ∀ file ∈ results.map report, file.status ≠ .failed) :
    NoFailure results := fun _ hmem => h _ (List.mem_map_of_mem hmem)

/-- The problems of a file, apart from a failure to write it. -/
theorem diagnostics_eq_of_ne_failed {result : FileResult} (h : result.attempt.status ≠ .failed)
    (mode : ScanMode) : result.diagnostics mode = diagnostics mode ⟨result.file, .planned⟩ := by
  obtain ⟨file, attempt⟩ := result
  cases attempt with
  | planned => rfl
  | done status => rfl
  | failed error => exact absurd rfl h

theorem NoFailure.flatMap_diagnostics (h : NoFailure results) (mode : ScanMode) :
    results.flatMap (diagnostics mode) =
      (results.map file).flatMap fun file => diagnostics mode ⟨file, .planned⟩ := by
  rw [List.flatMap_map]
  exact List.flatMap_congr fun result hmem => diagnostics_eq_of_ne_failed (h result hmem) mode

theorem NoFailure.countP_eq_zero (h : NoFailure results) :
    results.countP (fun result => result.attempt.status = .failed) = 0 := by
  apply List.countP_eq_zero.mpr
  intro result hmem
  simpa using h result hmem

end FileResult

namespace Plan

open FileResult (NoFailure)

variable {plan : Plan} {results : List FileResult}

/-- The files of a plan, of which all came to the same. -/
def uniform (plan : Plan) (attempt : Attempt) : List FileResult :=
  plan.files.map fun file => ⟨file, attempt⟩

theorem map_file_uniform (plan : Plan) (attempt : Attempt) :
    (plan.uniform attempt).map FileResult.file = plan.files := by
  rw [uniform, List.map_map]
  exact List.map_id' plan.files

theorem noFailure_uniform (plan : Plan) {attempt : Attempt} (h : attempt.status ≠ .failed) :
    NoFailure (plan.uniform attempt) := by
  intro result hmem
  obtain ⟨file, -, rfl⟩ := List.mem_map.mp hmem
  exact h

/-- Without a failure the gate sees what it would see if no file were to be written. -/
theorem gate_eq_of_noFailure (h : NoFailure results) : plan.gate results = plan.gate [] := by
  simp only [gate, h.countP_eq_zero, List.countP_nil]

theorem decide_eq_of_noFailure (h : NoFailure results) : plan.decide results = plan.decide [] := by
  simp only [decide, gate_eq_of_noFailure h]

/-- Two runs without a failure differ in what they tell of their files only. -/
theorem summary_eq_of_noFailure {others : List FileResult}
    (hfiles : others.map FileResult.file = results.map FileResult.file)
    (h : NoFailure results) (hothers : NoFailure others) (attempt : Attempt) :
    plan.summary others attempt =
      { plan.summary results attempt with files := others.map FileResult.report } := by
  have hdecide : plan.decide others = plan.decide results :=
    (decide_eq_of_noFailure hothers).trans (decide_eq_of_noFailure h).symm
  have hproblems : others.flatMap (FileResult.diagnostics plan.config.scanMode) =
      results.flatMap (FileResult.diagnostics plan.config.scanMode) := by
    rw [h.flatMap_diagnostics, hothers.flatMap_diagnostics, hfiles]
  simp only [summary, hdecide, hproblems]

end Plan

namespace FileTree

theorem wrote_fileWritings_of_noFailure {tree : FileTree} {plan : Plan}
    (hdry : plan.survey.job.dryRun = false)
    (h : FileResult.NoFailure (tree.writeFiles plan).1) :
    Wrote tree plan.fileWritings (tree.writeFiles plan).2 := by
  have hwrote := tree.wrote_writeFiles plan
  rw [writeFiles_of_not_dryRun hdry] at h hwrote ⊢
  rwa [writings_writeAll_of_no_failure h.countP_eq_zero] at hwrote

end FileTree

end MemberSplit
