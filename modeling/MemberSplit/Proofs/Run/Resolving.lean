import MemberSplit.Proofs.Config.Check
import MemberSplit.Proofs.Destination.BytePath
import MemberSplit.Proofs.Run.References

/-!
# A run refers to the files that it writes

The references of an aggregator and the reports of a summary are made from the same destinations,
one of each for every destination. A reference leads to the file whose path is reported, and no two
of the files share a path or a reference.
-/

namespace MemberSplit

/-- What is reported of a destination: its path and a reference that leads there. -/
structure FileReport.IsOf (plan : Plan) (destination : Destination) (report : FileReport) :
    Prop where
  path : report.path = plan.outputBase.join destination.path
  reference : report.reference = Location.reference plan.config.referenceTemplate
    plan.config.outputDirectory destination.path
  leads : destination.path ≠ [] →
    (Location.resolve plan.input
        (Location.pathFromInput plan.config.outputDirectory destination.path)).steps =
      report.path.steps

namespace Plan

variable {plan : Plan}

theorem isOf_report {destination : Destination} (hmem : destination ∈ plan.grouping.destinations)
    (attempt : Attempt) :
    (FileResult.report ⟨plan.plannedFile destination, attempt⟩).IsOf plan destination where
  path := rfl
  reference := rfl
  leads hne := Location.steps_resolve_pathFromInput plan.input _ (tidy_path hmem) hne

/-- The destinations are at different paths, also as the run sees them. -/
theorem nodup_filePaths (plan : Plan) : (plan.files.map PlannedFile.path).Nodup := by
  rw [files, List.map_map]
  exact plan.nodup_map_of_path fun hfirst hsecond =>
    Path.join_injective (hfirst ▸ Path.isAbsolute_tidy _) (hsecond ▸ Path.isAbsolute_tidy _)

/-- Results for planned destinations, in their order, report these. -/
theorem forall₂_isOf {destinations : List Destination} {results : List FileResult}
    (hplanned : ∀ destination ∈ destinations, destination ∈ plan.grouping.destinations)
    (h : results.map FileResult.file = destinations.map plan.plannedFile) :
    List.Forall₂ (FileReport.IsOf plan) destinations (results.map FileResult.report) := by
  induction destinations generalizing results with
  | nil =>
      obtain rfl : results = [] := by simpa using h
      exact .nil
  | cons destination rest ih =>
      cases results with
      | nil => simp at h
      | cons result others =>
          obtain ⟨hfile, hothers⟩ := List.cons.inj h
          obtain ⟨hfirst, hrest⟩ := List.forall_mem_cons.mp hplanned
          have hreport := isOf_report hfirst result.attempt
          rw [← hfile] at hreport
          exact .cons hreport (ih hrest hothers)

end Plan

namespace FileTree

variable {tree : FileTree} {job : Job} {summary : Summary}

theorem exists_plan_of_reports (h : (tree.run job).outcome = .ok summary) :
    ∃ plan, Plan.ofJob tree.read job = .ok plan ∧
      summary.files.map FileReport.path = plan.files.map PlannedFile.path ∧
      List.Forall₂ (FileReport.IsOf plan) plan.grouping.destinations summary.files := by
  obtain ⟨plan, attempt, hplan, rfl⟩ := exists_plan_of_outcome h
  have hfiles := tree.map_file_writeFiles plan
  refine ⟨plan, hplan, ?_, Plan.forall₂_isOf (fun _ hmem => hmem) hfiles⟩
  have hpaths := congrArg (List.map PlannedFile.path) hfiles
  rw [List.map_map] at hpaths
  exact List.map_map.trans hpaths

/-- A source whose members go to two files. -/
def withTwoFiles : FileTree :=
  ofFile "Foo.cpp" "void Foo::visit(Node n) {}\nvoid Foo::a() {}\n"

/-- A job with an input and an output directory that are written in a roundabout way. -/
def roundabout : Job where
  input := "./Foo.cpp"
  config := { outputDirectory := ".//lib/../gen/" }

/-- The summary of that job. -/
def roundaboutSummary : { summary : Summary //
    (withTwoFiles.run roundabout).outcome = .ok summary ∧ summary.outcome = .replaced ∧
      summary.files.map FileReport.path =
        ["././/lib/../gen/gen_visit_Node.cpp", "././/lib/../gen/helpers/gen_all_helpers.cpp"] ∧
      summary.files.map FileReport.reference =
        ["#include \"lib/../gen/gen_visit_Node.cpp\"",
          "#include \"lib/../gen/helpers/gen_all_helpers.cpp\""] } :=
  ⟨_, RunResult.outcome_eq_ok (by decide +kernel), by decide +kernel⟩

end FileTree

end MemberSplit
