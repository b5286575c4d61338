import MemberSplit.Proofs.FileTree.Parent
import MemberSplit.Proofs.Run.Conservation
import MemberSplit.Proofs.Run.Failures
import MemberSplit.Proofs.Run.Frame
import MemberSplit.Proofs.Run.Replan

/-!
# Doing a job again

If the input and the header hold after a run what they held before, the same plan is made for a
second run. That run finds every file with its text in place, unless the first one has replaced its
input and yet left it as it was, for then one of the files was at the place of the input.
-/

namespace MemberSplit

/-- The summary of a run that finds all files as they are to be. -/
def Summary.settled (summary : Summary) : Summary :=
  { summary with files := summary.files.map fun file => { file with status := .unchanged } }

theorem Attempt.eq_unchanged_of_status {attempt : Attempt} (h : attempt.status = .unchanged) :
    attempt = .done .unchanged := by
  unfold status at h
  split at h <;> simp_all

namespace Plan

variable {plan : Plan}

/-- No destination leaves the output directory by two dots. -/
def StaysBelow (plan : Plan) : Prop :=
  ∀ destination ∈ plan.grouping.destinations,
    Path.Component.parent ∉ destination.path.components

theorem tidy_path {destination : Destination}
    (hmem : destination ∈ plan.grouping.destinations) :
    FileNaming.tidy destination.path = destination.path := by
  have hpath := List.mem_map_of_mem (f := Destination.path) hmem
  rw [grouping, Grouping.paths_ofClassified, List.mem_eraseDups] at hpath
  obtain ⟨placement, hplacement, hpath⟩ := List.mem_map.mp hpath
  obtain ⟨classified, -, rfl⟩ := List.mem_map.mp ((Placement.firsts_sublist [] _).subset hplacement)
  rw [← hpath]
  exact Path.tidy_path plan.namer classified.group

/-- Destinations below the output directory go to different places. -/
theorem StaysBelow.nodup_places (h : plan.StaysBelow) (tree : FileTree) :
    (plan.fileWritings.map fun writing => tree.placeOf writing.path).Nodup := by
  have hpaths := Grouping.nodup_paths_ofClassified plan.namer plan.preamble plan.classified
  rw [fileWritings, files, List.map_map, List.map_map]
  apply List.Nodup.map_on _ hpaths.of_map
  intro first hfirst second hsecond hplace
  have hpath := FileTree.eq_of_placeOf_join_eq (tidy_path hfirst) (tidy_path hsecond)
    (h first hfirst) (h second hsecond) hplace
  exact List.inj_on_of_nodup_map hpaths hfirst hsecond hpath

/-- An input is replaced by an attempt that has put its new text in place. -/
theorem attempt_eq_written {decision : Decision} {attempt : Attempt}
    (h : outcome decision attempt = .replaced) : attempt = .done .written := by
  unfold outcome at h
  split at h <;> simp_all

end Plan

namespace FileTree

variable {tree : FileTree} {job : Job} {plan : Plan}

theorem attempt_of_read {path : Path} {text : Text}
    (h : tree.read path = .ok (Utf8.encode text)) :
    tree.attempt path text = (.done .unchanged, tree) := by
  rw [attempt, write_of_read h]
  rfl

/-- Files that hold their texts are left alone. -/
theorem writeAll_of_read {files : List PlannedFile}
    (h : ∀ file ∈ files, tree.read file.path = .ok (Utf8.encode file.destination.text)) :
    tree.writeAll files = (files.map fun file => ⟨file, .done .unchanged⟩, tree) := by
  induction files with
  | nil => rfl
  | cons file rest ih =>
      have hfile := attempt_of_read (h file List.mem_cons_self)
      have hrest := ih fun other hmem => h other (List.mem_cons_of_mem _ hmem)
      simp only [writeAll, hfile, hrest, List.map_cons]

/-- Files that were left alone held their texts. -/
theorem read_of_writeAll {files : List PlannedFile}
    (h : ∀ result ∈ (tree.writeAll files).1, result.attempt = .done .unchanged) :
    ∀ file ∈ files, tree.read file.path = .ok (Utf8.encode file.destination.text) := by
  induction files with
  | nil => simp
  | cons file rest ih =>
      simp only [writeAll, List.forall_mem_cons] at h ⊢
      obtain ⟨hfirst, hothers⟩ := h
      have hread : tree.read file.path = .ok (Utf8.encode file.destination.text) := by
        apply write_eq_unchanged_iff.mp
        cases hresult : (tree.write file.path file.destination.text).1 with
        | error error => simp [attempt, hresult, Attempt.ofResult] at hfirst
        | ok status => simpa [attempt, hresult, Attempt.ofResult] using hfirst
      rw [attempt_of_read hread] at hothers
      exact ⟨hread, ih hothers⟩

/-- If the input is not replaced, the tree is as the files have left it. -/
theorem replaceInput_eq_self {bytes : Bytes} {decision : Decision}
    (hread : tree.read plan.input = .ok bytes)
    (h : Plan.outcome decision (tree.replaceInput plan decision).1 ≠ .replaced) :
    (tree.replaceInput plan decision).2 = tree := by
  cases decision with
  | nothing => rfl
  | withhold reasons => rfl
  | onlyPlan => rfl
  | replace text =>
      simp only [replaceInput, attempt] at h ⊢
      cases hresult : (tree.write plan.input text).1 with
      | error error => exact write_eq_self_of_error hread hresult
      | ok status =>
          cases status with
          | written => simp [hresult, Attempt.ofResult, Plan.outcome] at h
          | unchanged => rw [write_of_read (write_eq_unchanged_iff.mp hresult)]

/-- An input that is replaced by what it held before the run has been overwritten by a file. -/
theorem exists_file_at_input (hplan : Plan.ofJob tree.read job = .ok plan)
    (hwrote : Wrote tree plan.fileWritings (tree.writeFiles plan).2)
    (h : (tree.run job).inputOutcome? = some .replaced)
    (hinput : (tree.run job).tree.read job.input = tree.read job.input) :
    ∃ file ∈ plan.files, tree.placeOf file.path = tree.placeOf job.input ∧
      file.destination.text ≠ plan.aggregator.text := by
  have hpath := (Plan.surveys_of_ofJob hplan).input_eq
  have hread := read_input_of_outcome hplan h (.inl rfl)
  rw [hinput] at hread
  have hmiddle := hwrote.read_eq hread
  rw [run_of_plan hplan, inputOutcome?_carryOut] at h
  obtain ⟨-, hreplace, -⟩ := replaceInput_of_outcome (Option.some.inj h) (.inl rfl)
  -- The attempt was made, so the input did not hold the aggregator at that time.
  have hother : (tree.writeFiles plan).2.read job.input ≠
      .ok (Utf8.encode plan.aggregator.text) := by
    intro hsame
    have hwritten := Plan.attempt_eq_written (Option.some.inj h)
    rw [hreplace, attempt_of_read (hpath ▸ hsame)] at hwritten
    cases hwritten
  cases htext : tree.lastText? plan.fileWritings (tree.placeOf job.input) with
  | none =>
      rw [htext] at hmiddle
      exact absurd hmiddle hother
  | some text =>
      obtain ⟨writing, hmem, hplace, rfl⟩ := exists_mem_of_lastText?_eq_some htext
      obtain ⟨file, hfile, rfl⟩ := List.mem_map.mp hmem
      refine ⟨file, hfile, hplace, fun hsame => ?_⟩
      rw [htext] at hmiddle
      apply hother
      rw [hmiddle, ← hsame]
      rfl

/-- A run whose files are all in place tells what the run before it has told. -/
theorem run_of_read {attempt : Attempt} {results : List FileResult}
    (hplan : Plan.ofJob tree.read job = .ok plan) (hdry : job.dryRun = false)
    (hread : ∀ file ∈ plan.files, tree.read file.path = .ok (Utf8.encode file.destination.text))
    (hfiles : results.map FileResult.file = plan.files) (hnone : FileResult.NoFailure results)
    (hinput : tree.replaceInput plan (plan.decide results) = (attempt, tree)) :
    (tree.run job).outcome = .ok (plan.summary results attempt).settled ∧
      (tree.run job).tree = tree := by
  have hdry' := (Plan.surveys_of_ofJob hplan).dryRun_eq.trans hdry
  have hsettled : FileResult.NoFailure (plan.uniform (.done .unchanged)) :=
    plan.noFailure_uniform fun h => nomatch h
  have hwrite : tree.writeFiles plan = (plan.uniform (.done .unchanged), tree) := by
    rw [writeFiles_of_not_dryRun hdry']
    exact writeAll_of_read hread
  have hdecide : plan.decide (plan.uniform (.done .unchanged)) = plan.decide results :=
    (Plan.decide_eq_of_noFailure hsettled).trans (Plan.decide_eq_of_noFailure hnone).symm
  have hsame := (plan.map_file_uniform (.done .unchanged)).trans hfiles.symm
  rw [run_of_plan hplan, carryOut, hwrite]
  simp only [hdecide, hinput, and_true]
  rw [Plan.summary_eq_of_noFailure hsame hnone hsettled, Plan.uniform, ← hfiles]
  simp only [Summary.settled, Plan.summary, List.map_map]
  rfl

/-- A run that did not replace its input is told again, with all files in place. -/
theorem run_again_of_ne_replaced (hplan : Plan.ofJob tree.read job = .ok plan)
    (hdry : job.dryRun = false) (hnone : FileResult.NoFailure (tree.writeFiles plan).1)
    (hbelow : plan.StaysBelow) (hplan' : Plan.ofJob (tree.carryOut plan).tree.read job = .ok plan)
    (h : (tree.carryOut plan).inputOutcome? ≠ some .replaced) :
    ((tree.carryOut plan).tree.run job).outcome =
        (tree.carryOut plan).outcome.map Summary.settled ∧
      ((tree.carryOut plan).tree.run job).tree = (tree.carryOut plan).tree := by
  have hdry' := (Plan.surveys_of_ofJob hplan).dryRun_eq.trans hdry
  have hpath := (Plan.surveys_of_ofJob hplan).input_eq
  have hwrote := wrote_fileWritings_of_noFailure hdry' hnone
  obtain ⟨bytes, hinput⟩ := exists_read_of_plan hplan
  have hself : ((tree.writeFiles plan).2.replaceInput plan
      (plan.decide (tree.writeFiles plan).1)).2 = (tree.writeFiles plan).2 := by
    apply replaceInput_eq_self (hpath ▸ hwrote.read_eq hinput)
    intro hreplaced
    rw [inputOutcome?_carryOut, hreplaced] at h
    exact h rfl
  have hread : ∀ file ∈ plan.files,
      (tree.writeFiles plan).2.read file.path = .ok (Utf8.encode file.destination.text) := by
    intro file hfile
    have hmem : file.writing ∈ plan.fileWritings := List.mem_map_of_mem hfile
    obtain ⟨text, htext, hread⟩ := hwrote.exists_read hmem
    rw [lastText?_eq_of_nodup (hbelow.nodup_places tree) hmem] at htext
    obtain rfl := Option.some.inj htext
    exact hread
  rw [tree_carryOut, hself] at hplan' ⊢
  exact run_of_read hplan' hdry hread (tree.map_file_writeFiles plan) hnone (Prod.ext rfl hself)

/-- A run that replaced its input by what it held before finds another text at the place of some
file when it is done again. -/
theorem exists_ne_unchanged_of_replaced {again : Summary}
    (hplan : Plan.ofJob tree.read job = .ok plan) (hdry : job.dryRun = false)
    (hnone : FileResult.NoFailure (tree.writeFiles plan).1)
    (hreplaced : (tree.run job).inputOutcome? = some .replaced)
    (hinput : (tree.run job).tree.read job.input = tree.read job.input)
    (hplan' : Plan.ofJob (tree.run job).tree.read job = .ok plan)
    (hagain : ((tree.run job).tree.run job).outcome = .ok again) :
    ∃ file ∈ again.files, file.status ≠ .unchanged := by
  have hdry' := (Plan.surveys_of_ofJob hplan).dryRun_eq.trans hdry
  have hwrote := wrote_fileWritings_of_noFailure hdry' hnone
  obtain ⟨file, hfile, hplace, hother⟩ := exists_file_at_input hplan hwrote hreplaced hinput
  rw [run_of_plan hplan'] at hagain
  obtain rfl := Except.ok.inj hagain
  by_contra hall
  push Not at hall
  have hfileRead : (tree.run job).tree.read file.path =
      .ok (Utf8.encode file.destination.text) := by
    refine read_of_writeAll ?_ file hfile
    intro result hmem
    rw [← writeFiles_of_not_dryRun hdry'] at hmem
    exact Attempt.eq_unchanged_of_status (hall _ (List.mem_map_of_mem hmem))
  have hinputRead := read_input_of_outcome hplan hreplaced (.inl rfl)
  have hplace' : (tree.run job).tree.placeOf file.path = (tree.run job).tree.placeOf job.input := by
    obtain ⟨writings, hall⟩ := tree.exists_wrote_run job
    rw [placeOf_congr hall.workingDirectory_eq, hplace, placeOf_congr hall.workingDirectory_eq]
  exact hother (Utf8.encode_injective (eq_of_placeOf_eq hfileRead hinputRead hplace'))

/-- After a run without a failure, let the input and the header hold what they held before. Then the
run can be done again, and doing so changes nothing and tells the same, only that all files are as
they are to be: this is so exactly if the input was not replaced, and it was not if no file is at
its place. -/
theorem settled_iff_of_run_again {summary : Summary}
    (hplan : Plan.ofJob tree.read job = .ok plan)
    (hsummary : (tree.run job).outcome = .ok summary) (hdry : job.dryRun = false)
    (hfiles : ∀ file ∈ summary.files, file.status ≠ .failed) (hbelow : plan.StaysBelow)
    (hinput : (tree.run job).tree.read job.input = tree.read job.input)
    (hinfer : job.declarations = none →
      Header.infer? (tree.run job).tree.read job.input = Header.infer? tree.read job.input)
    (hheader : ∀ path ∈ summary.declarations,
      (tree.run job).tree.read path = tree.read path) :
    ∃ again, ((tree.run job).tree.run job).outcome = .ok again ∧
      (again = summary.settled ∧ ((tree.run job).tree.run job).tree = (tree.run job).tree ↔
        summary.outcome ≠ .replaced) ∧
      ((∀ file ∈ plan.files, tree.placeOf file.path ≠ tree.placeOf job.input) →
        summary.outcome ≠ .replaced) := by
  have hdry' := (Plan.surveys_of_ofJob hplan).dryRun_eq.trans hdry
  have hrun := run_of_plan hplan
  have hcarry : (tree.carryOut plan).outcome = .ok summary := hrun ▸ hsummary
  have houtcome : (tree.run job).inputOutcome? = some summary.outcome := by
    rw [RunResult.inputOutcome?, hsummary]
  have hnone : FileResult.NoFailure (tree.writeFiles plan).1 := by
    obtain rfl := Except.ok.inj hcarry
    exact FileResult.noFailure_of_report hfiles
  have hdeclarations : summary.declarations = plan.header.map fun check => check.source.path := by
    obtain rfl := Except.ok.inj hcarry
    rfl
  have hplan' : Plan.ofJob (tree.run job).tree.read job = .ok plan := by
    apply Plan.ofJob_congr hplan hinput hinfer
    intro check hcheck
    apply hheader
    rw [hdeclarations]
    exact Option.mem_map_of_mem _ hcheck
  have hagain := run_of_plan hplan'
  refine ⟨_, congrArg RunResult.outcome hagain, ⟨?_, ?_⟩, ?_⟩
  · rintro ⟨hsettled, -⟩ hreplaced
    obtain ⟨file, hmem, hstatus⟩ := exists_ne_unchanged_of_replaced hplan hdry hnone
      (hreplaced ▸ houtcome) hinput hplan' (congrArg RunResult.outcome hagain)
    rw [hsettled] at hmem
    obtain ⟨file, -, rfl⟩ := List.mem_map.mp hmem
    exact hstatus rfl
  · intro hne
    have hkept : (tree.carryOut plan).inputOutcome? ≠ some .replaced := by
      rw [← hrun, houtcome]
      simpa using hne
    rw [hrun] at hplan'
    obtain ⟨htold, htree⟩ :=
      run_again_of_ne_replaced hplan hdry hnone hbelow hplan' hkept
    rw [hcarry, ← hrun, hagain] at htold
    rw [← hrun] at htree
    exact ⟨Except.ok.inj htold, htree⟩
  · intro hother hreplaced
    obtain ⟨file, hfile, hplace, -⟩ := exists_file_at_input hplan
      (wrote_fileWritings_of_noFailure hdry' hnone) (hreplaced ▸ houtcome) hinput
    exact hother file hfile hplace

/-- A file at the place of the input is written again by each run, even if the aggregator that then
takes its place is what the input has always held. -/
theorem settled_iff_of_run_again_of_input_path :
    let tree := ofFile "Foo_core.cpp" "void Foo::bar() {} // Foo_core.cpp\n"
    let job : Job :=
      { input := "Foo_core.cpp"
        config :=
          { owner := some "Foo", outputDirectory := ".", coreFunctions := .ofList ["bar"]
            referenceTemplate := "void Foo::bar() {} // {path}" } }
    (tree.run job).tree.read job.input = tree.read job.input ∧
      ∃ summary again, (tree.run job).outcome = .ok summary ∧
        ((tree.run job).tree.run job).outcome = .ok again ∧
        ¬ (again = summary.settled ∧
          ((tree.run job).tree.run job).tree = (tree.run job).tree) := by
  intro tree job
  have hreplaced : (tree.run job).inputOutcome? = some .replaced := by decide +kernel
  obtain ⟨plan, hplan, -⟩ := exists_plan_of_inputOutcome? hreplaced
  have hbelow : ∀ plan ∈ (Plan.ofJob tree.read job).toOption,
      ∀ destination ∈ plan.grouping.destinations,
        Path.Component.parent ∉ destination.path.components := by
    decide +kernel
  have hfacts : ∀ summary ∈ (tree.run job).outcome.toOption,
      summary.outcome = .replaced ∧ (∀ file ∈ summary.files, file.status ≠ .failed) ∧
        summary.declarations = none := by
    decide +kernel
  have hinput : (tree.run job).tree.read job.input = tree.read job.input := by decide +kernel
  have hinfer : Header.infer? (tree.run job).tree.read job.input =
      Header.infer? tree.read job.input := by
    decide +kernel
  cases hsummary : (tree.run job).outcome with
  | error failure => simp [RunResult.inputOutcome?, hsummary] at hreplaced
  | ok summary =>
      obtain ⟨houtcome, hfiles, hnone⟩ := hfacts summary (by rw [hsummary]; rfl)
      obtain ⟨again, hagain, hsettled, -⟩ := settled_iff_of_run_again hplan hsummary rfl hfiles
        (hbelow plan (by rw [hplan]; rfl)) hinput (fun _ => hinfer) (by simp [hnone])
      exact ⟨hinput, summary, again, rfl, hagain, fun hsame => hsettled.mp hsame houtcome⟩

end FileTree

end MemberSplit
