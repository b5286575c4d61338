import MemberSplit.Proofs.FileTree.Outcome
import MemberSplit.Proofs.Run.Steps

/-!
# What a run has written

The writings of a run are those of its files that could be written, in their order, and then the one
that replaces the input. If the input was replaced and nothing was forced, these are all that the
plan has; if it was not replaced, there is none for the input.
-/

namespace MemberSplit

/-- What an attempt at a writing has written. -/
def Attempt.written (attempt : Attempt) (writing : Writing) : List Writing :=
  match attempt with
  | .done _ => [writing]
  | _ => []

@[simp] theorem Attempt.written_done (status : WriteResult) (writing : Writing) :
    (Attempt.done status).written writing = [writing] := rfl

theorem Attempt.written_ofResult (path : Path) (text : Text)
    (result : Except OsError WriteResult) :
    (Attempt.ofResult result).written ⟨path, text⟩ = FileTree.writingOf path text result := by
  cases result <;> rfl

/-- What a planned file is to hold. -/
def PlannedFile.writing (file : PlannedFile) : Writing :=
  ⟨file.path, file.destination.text⟩

/-- What has been written to some files. -/
def FileResult.writings (results : List FileResult) : List Writing :=
  results.flatMap fun result => result.attempt.written result.file.writing

namespace Plan

/-- What the files of a plan are to hold. -/
def fileWritings (plan : Plan) : List Writing :=
  plan.files.map PlannedFile.writing

/-- All that is written if a plan is carried out and nothing is in the way. -/
def writings (plan : Plan) : List Writing :=
  plan.fileWritings ++ [⟨plan.input, plan.aggregator.text⟩]

theorem decide_eq_replace {plan : Plan} {results : List FileResult} {text : Text}
    (h : plan.decide results = .replace text) :
    plan.survey.job.dryRun = false ∧ text = plan.aggregator.text := by
  obtain ⟨-, hdecide⟩ | ⟨-, -, -, hdecide⟩ | ⟨-, -, hdecide⟩ := plan.decide_cases results
  · simp [hdecide] at h
  · simp [hdecide] at h
  · rw [hdecide] at h
    split at h
    next => simp at h
    next hdry => exact ⟨by simpa using hdry, (Decision.replace.inj h).symm⟩

end Plan

namespace FileTree

theorem wrote_attempt (tree : FileTree) (path : Path) (text : Text) :
    Wrote tree ((tree.attempt path text).1.written ⟨path, text⟩)
      (tree.attempt path text).2 := by
  unfold attempt
  rw [Attempt.written_ofResult]
  exact wrote_write tree path text

theorem attempt_ne_planned (tree : FileTree) (path : Path) (text : Text) :
    (tree.attempt path text).1 ≠ .planned := by
  cases hresult : (tree.write path text).1 <;> simp [attempt, hresult, Attempt.ofResult]

theorem map_file_writeAll (tree : FileTree) (files : List PlannedFile) :
    (tree.writeAll files).1.map FileResult.file = files := by
  induction files generalizing tree with
  | nil => rfl
  | cons file rest ih =>
      simp only [writeAll, List.map_cons]
      rw [ih]

theorem wrote_writeAll (tree : FileTree) (files : List PlannedFile) :
    Wrote tree (FileResult.writings (tree.writeAll files).1) (tree.writeAll files).2 := by
  induction files generalizing tree with
  | nil => exact .refl tree
  | cons file rest ih =>
      have hfirst := tree.wrote_attempt file.path file.destination.text
      exact hfirst.trans (ih _)

/-- Each file that was tried was written, or its failure is counted. -/
theorem writings_writeAll_of_no_failure {tree : FileTree} {files : List PlannedFile}
    (h : (tree.writeAll files).1.countP (fun result => result.attempt.status = .failed) = 0) :
    FileResult.writings (tree.writeAll files).1 = files.map PlannedFile.writing := by
  induction files generalizing tree with
  | nil => rfl
  | cons file rest ih =>
      simp only [writeAll, List.countP_cons, Nat.add_eq_zero_iff] at h
      obtain ⟨hrest, hfirst⟩ := h
      -- A file that was tried is done or has failed, and a failure would be counted.
      have hdone : ((tree.attempt file.path file.destination.text).1).written file.writing =
          [file.writing] := by
        cases hresult : (tree.write file.path file.destination.text).1 with
        | ok status => simp [attempt, hresult, Attempt.ofResult, Attempt.written]
        | error error => simp [attempt, hresult, Attempt.ofResult, Attempt.status] at hfirst
      simp only [writeAll, FileResult.writings, List.flatMap_cons, List.map_cons] at ih ⊢
      rw [hdone, ih hrest]
      rfl

variable {tree : FileTree} {plan : Plan}

theorem writeFiles_of_dryRun (hdry : plan.survey.job.dryRun = true) :
    tree.writeFiles plan = (plan.files.map fun file => ⟨file, .planned⟩, tree) := by
  rw [writeFiles, if_pos hdry]

theorem writeFiles_of_not_dryRun (hdry : plan.survey.job.dryRun = false) :
    tree.writeFiles plan = tree.writeAll plan.files := by
  rw [writeFiles, if_neg (by simp [hdry])]

theorem map_file_writeFiles (tree : FileTree) (plan : Plan) :
    (tree.writeFiles plan).1.map FileResult.file = plan.files := by
  unfold writeFiles
  split
  next => simp [Function.comp_def]
  next => exact tree.map_file_writeAll plan.files

/-- A dry run writes no file. -/
theorem writings_writeFiles_of_dryRun (hdry : plan.survey.job.dryRun = true) :
    FileResult.writings (tree.writeFiles plan).1 = [] := by
  simp [writeFiles, hdry, FileResult.writings, Attempt.written]

theorem wrote_writeFiles (tree : FileTree) (plan : Plan) :
    Wrote tree (FileResult.writings (tree.writeFiles plan).1) (tree.writeFiles plan).2 := by
  cases hdry : plan.survey.job.dryRun with
  | true =>
      rw [writings_writeFiles_of_dryRun hdry, writeFiles_of_dryRun hdry]
      exact .refl tree
  | false =>
      rw [writeFiles_of_not_dryRun hdry]
      exact tree.wrote_writeAll plan.files

/-- What an attempt leaves behind that did not put new contents into its file. -/
theorem wrote_attempt_of_ne_written {path : Path} {text : Text}
    (h : (tree.attempt path text).1 ≠ .done .written) :
    Wrote tree [] (tree.attempt path text).2 := by
  have hwrote := tree.wrote_attempt path text
  cases hresult : (tree.write path text).1 with
  | error error => simpa [attempt, hresult, Attempt.ofResult, Attempt.written] using hwrote
  | ok status =>
      cases status with
      | written => simp [attempt, hresult, Attempt.ofResult] at h
      | unchanged =>
          have hself : (tree.attempt path text).2 = tree :=
            congrArg Prod.snd (write_of_read (write_eq_unchanged_iff.mp hresult))
          rw [hself]
          exact .refl tree

/-- An input that is not replaced is not written. -/
theorem wrote_replaceInput_of_ne_replaced {decision : Decision}
    (h : Plan.outcome decision (tree.replaceInput plan decision).1 ≠ .replaced) :
    Wrote tree [] (tree.replaceInput plan decision).2 := by
  cases decision with
  | replace text =>
      apply wrote_attempt_of_ne_written
      intro hwritten
      simp [replaceInput, hwritten, Plan.outcome] at h
  | nothing => exact .refl tree
  | withhold reasons => exact .refl tree
  | onlyPlan => exact .refl tree

/-- What it takes for the input to hold its new text afterwards. -/
theorem replaceInput_of_outcome {results : List FileResult} {result : InputOutcome}
    (houtcome : Plan.outcome (plan.decide results)
      (tree.replaceInput plan (plan.decide results)).1 = result)
    (hresult : result = .replaced ∨ result = .unchanged) :
    plan.survey.job.dryRun = false ∧
      tree.replaceInput plan (plan.decide results) =
        tree.attempt plan.input plan.aggregator.text ∧
      ∃ status, (tree.attempt plan.input plan.aggregator.text).1 = .done status := by
  subst houtcome
  cases hdecide : plan.decide results with
  | nothing => simp [hdecide, Plan.outcome] at hresult
  | withhold reasons => simp [hdecide, Plan.outcome] at hresult
  | onlyPlan => simp [hdecide, Plan.outcome] at hresult
  | replace text =>
      obtain ⟨hdry, rfl⟩ := Plan.decide_eq_replace hdecide
      refine ⟨hdry, rfl, ?_⟩
      rw [hdecide] at hresult
      simp only [replaceInput] at hresult
      cases hattempt : (tree.attempt plan.input plan.aggregator.text).1 with
      | done status => exact ⟨status, rfl⟩
      | planned => simp [hattempt, Plan.outcome] at hresult
      | failed error => simp [hattempt, Plan.outcome] at hresult

/-- An input that was replaced, or that needed no change, holds the text of its aggregator. -/
theorem read_input_of_outcome {job : Job} {result : InputOutcome}
    (hplan : Plan.ofJob tree.read job = .ok plan)
    (h : (tree.run job).inputOutcome? = some result)
    (hresult : result = .replaced ∨ result = .unchanged) :
    (tree.run job).tree.read job.input = .ok (Utf8.encode plan.aggregator.text) := by
  obtain ⟨made, hmade, houtcome⟩ := exists_plan_of_inputOutcome? h
  obtain rfl := Except.ok.inj (hmade.symm.trans hplan)
  obtain ⟨-, hreplace, status, hdone⟩ := replaceInput_of_outcome houtcome hresult
  have hinput := (tree.writeFiles made).2.wrote_attempt made.input made.aggregator.text
  rw [hdone, Attempt.written_done] at hinput
  obtain ⟨text, htext, hread⟩ := hinput.exists_read (List.mem_singleton.mpr rfl)
  rw [lastText?_singleton, if_pos rfl] at htext
  obtain rfl := Option.some.inj htext
  rw [run_of_plan hmade, tree_carryOut, hreplace, ← (Plan.surveys_of_ofJob hmade).input_eq]
  exact hread

/-- An unforced run after which the input is the aggregator has written all that was planned. -/
theorem wrote_of_outcome {job : Job} {result : InputOutcome}
    (hplan : Plan.ofJob tree.read job = .ok plan)
    (h : (tree.run job).inputOutcome? = some result) (hforce : job.force = false)
    (hresult : result = .replaced ∨ result = .unchanged) :
    Wrote tree plan.writings (tree.run job).tree := by
  obtain ⟨made, hmade, houtcome⟩ := exists_plan_of_inputOutcome? h
  obtain rfl := Except.ok.inj (hmade.symm.trans hplan)
  have hgate := (reasons_eq_nil_of_run hplan h hforce (hresult.imp_right .inl)).2
  have hfailures := (Gate.reasons_eq_nil_iff.mp hgate).2.2.1
  obtain ⟨hdry, hreplace, status, hdone⟩ := replaceInput_of_outcome houtcome hresult
  have hfiles := tree.wrote_writeFiles made
  have hinput := (tree.writeFiles made).2.wrote_attempt made.input made.aggregator.text
  -- Nothing failed, so the files are written as planned.
  have hwritten : FileResult.writings (tree.writeFiles made).1 = made.fileWritings := by
    rw [writeFiles_of_not_dryRun hdry] at hfailures ⊢
    exact writings_writeAll_of_no_failure hfailures
  rw [hwritten] at hfiles
  rw [hdone, Attempt.written_done] at hinput
  rw [run_of_plan hplan, tree_carryOut, hreplace]
  exact hfiles.trans hinput

theorem wrote_of_replaced {job : Job} (hforce : job.force = false)
    (h : (tree.run job).inputOutcome? = some .replaced) :
    ∃ plan, Plan.ofJob tree.read job = .ok plan ∧
      Wrote tree plan.writings (tree.run job).tree := by
  obtain ⟨plan, hplan, -⟩ := exists_plan_of_inputOutcome? h
  exact ⟨plan, hplan, wrote_of_outcome hplan h hforce (.inl rfl)⟩

/-- A run that does not replace its input has written no more than its files. -/
theorem wrote_of_ne_replaced {job : Job} (hplan : Plan.ofJob tree.read job = .ok plan)
    (h : (tree.run job).inputOutcome? ≠ some .replaced) :
    Wrote tree (FileResult.writings (tree.writeFiles plan).1) (tree.run job).tree := by
  have houtcome : Plan.outcome (plan.decide (tree.writeFiles plan).1)
      ((tree.writeFiles plan).2.replaceInput plan
        (plan.decide (tree.writeFiles plan).1)).1 ≠ .replaced := by
    intro hreplaced
    apply h
    rw [run_of_plan hplan, inputOutcome?_carryOut, hreplaced]
  have hinput := wrote_replaceInput_of_ne_replaced houtcome
  have hboth := (tree.wrote_writeFiles plan).trans hinput
  rw [List.append_nil] at hboth
  rw [run_of_plan hplan, tree_carryOut]
  exact hboth

end FileTree

end MemberSplit
