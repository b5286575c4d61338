import MemberSplit.Proofs.Run.InputKept

/-!
# What a run leaves alone

A run that fails, that is dry or that has nothing to split leaves the tree as it is. Every other run
changes a file only where one of its writes has put new contents, and it tells of each such write.
-/

namespace MemberSplit

/-- What an attempt has put in the place of other contents; a file that held its text before is
left alone. -/
def Attempt.changes (attempt : Attempt) (writing : Writing) : List Writing :=
  match attempt with
  | .done .written => [writing]
  | _ => []

theorem Attempt.eq_of_mem_changes {attempt : Attempt} {writing change : Writing}
    (h : change ∈ attempt.changes writing) : change = writing ∧ attempt = .done .written := by
  unfold changes at h
  split at h
  next => exact ⟨List.mem_singleton.mp h, rfl⟩
  next => cases h

/-- The new contents of some files. -/
def FileResult.changes (results : List FileResult) : List Writing :=
  results.flatMap fun result => result.attempt.changes result.file.writing

namespace FileTree

variable {tree : FileTree} {job : Job} {plan : Plan}

/-- A place that is not as it was has become a directory, or a writing leads to it. -/
theorem Wrote.exists_locate_of_ne {later : FileTree} {writings : List Writing}
    (h : Wrote tree writings later) {place : Place} (hne : later.node? place ≠ tree.node? place) :
    (tree.node? place = none ∧ later.node? place = some .directory) ∨
      ∃ writing ∈ writings, later.locate writing.path = .ok place := by
  have hfollows := h.follows place
  cases htext : tree.lastText? writings place with
  | none =>
      rw [htext] at hfollows
      exact .inl (hfollows.resolve_left hne)
  | some text =>
      obtain ⟨writing, hmem, rfl, -⟩ := exists_mem_of_lastText?_eq_some htext
      exact .inr ⟨writing, hmem, h.locate writing hmem⟩

theorem wrote_changes_attempt (tree : FileTree) (path : Path) (text : Text) :
    Wrote tree ((tree.attempt path text).1.changes ⟨path, text⟩)
      (tree.attempt path text).2 := by
  by_cases hwritten : (tree.attempt path text).1 = .done .written
  · have hwrote := tree.wrote_attempt path text
    rw [hwritten] at hwrote ⊢
    exact hwrote
  · have hnone : (tree.attempt path text).1.changes ⟨path, text⟩ = [] := by
      unfold Attempt.changes
      split
      next heq => exact absurd heq hwritten
      next => rfl
    rw [hnone]
    exact wrote_attempt_of_ne_written hwritten

theorem wrote_changes_writeAll (tree : FileTree) (files : List PlannedFile) :
    Wrote tree (FileResult.changes (tree.writeAll files).1) (tree.writeAll files).2 := by
  induction files generalizing tree with
  | nil => exact .refl tree
  | cons file rest ih =>
      have hfirst := tree.wrote_changes_attempt file.path file.destination.text
      exact hfirst.trans (ih _)

theorem wrote_changes_writeFiles (tree : FileTree) (plan : Plan) :
    Wrote tree (FileResult.changes (tree.writeFiles plan).1) (tree.writeFiles plan).2 := by
  cases hdry : plan.survey.job.dryRun with
  | true =>
      rw [writeFiles_of_dryRun hdry]
      have hnone : FileResult.changes (plan.files.map fun file => ⟨file, .planned⟩) = [] := by
        simp [FileResult.changes, Attempt.changes]
      rw [hnone]
      exact .refl tree
  | false =>
      rw [writeFiles_of_not_dryRun hdry]
      exact tree.wrote_changes_writeAll plan.files

theorem wrote_changes_replaceInput (tree : FileTree) (plan : Plan) (results : List FileResult) :
    Wrote tree
      ((tree.replaceInput plan (plan.decide results)).1.changes
        ⟨plan.input, plan.aggregator.text⟩)
      (tree.replaceInput plan (plan.decide results)).2 := by
  cases hdecide : plan.decide results with
  | replace text =>
      obtain ⟨-, rfl⟩ := Plan.decide_eq_replace hdecide
      exact tree.wrote_changes_attempt plan.input plan.aggregator.text
  | nothing => exact .refl tree
  | withhold reasons => exact .refl tree
  | onlyPlan => exact .refl tree

/-- All that a run changes are new contents of its files and of its input. -/
theorem wrote_changes_carryOut (tree : FileTree) (plan : Plan) :
    Wrote tree
      (FileResult.changes (tree.writeFiles plan).1 ++
        ((tree.writeFiles plan).2.replaceInput plan
          (plan.decide (tree.writeFiles plan).1)).1.changes ⟨plan.input, plan.aggregator.text⟩)
      (tree.carryOut plan).tree := by
  have hinput := (tree.writeFiles plan).2.wrote_changes_replaceInput plan (tree.writeFiles plan).1
  exact (tree.wrote_changes_writeFiles plan).trans hinput

theorem exists_wrote_run (tree : FileTree) (job : Job) :
    ∃ writings, Wrote tree writings (tree.run job).tree := by
  cases hplan : Plan.ofJob tree.read job with
  | error failure =>
      rw [tree_eq_of_failure hplan]
      exact ⟨[], .refl tree⟩
  | ok plan =>
      rw [run_of_plan hplan]
      exact ⟨_, tree.wrote_changes_carryOut plan⟩

/-- If an attempt has put the aggregator in place, the input is told as replaced. -/
theorem outcome_eq_replaced {decision : Decision}
    (h : (tree.replaceInput plan decision).1 = .done .written) :
    Plan.outcome decision (tree.replaceInput plan decision).1 = .replaced := by
  cases decision with
  | replace text =>
      rw [h]
      rfl
  | nothing => cases h
  | withhold reasons => cases h
  | onlyPlan => cases h

/-- A plan that is dry or has no definitions is carried out without a change. -/
theorem tree_carryOut_eq_self (h : plan.survey.job.dryRun = true ∨ plan.definitions = []) :
    (tree.carryOut plan).tree = tree := by
  have hfiles : (tree.writeFiles plan).2 = tree := by
    cases hdry : plan.survey.job.dryRun with
    | true => rw [writeFiles_of_dryRun hdry]
    | false =>
        rw [writeFiles_of_not_dryRun hdry, files_eq_nil (h.resolve_left (by simp [hdry]))]
        rfl
  rw [tree_carryOut, hfiles]
  obtain ⟨-, hdecide⟩ | ⟨-, -, -, hdecide⟩ | ⟨hdefinitions, -, hdecide⟩ :=
    plan.decide_cases (tree.writeFiles plan).1
  · rw [hdecide]
    rfl
  · rw [hdecide]
    rfl
  · rw [hdecide, if_pos (h.resolve_right hdefinitions)]
    rfl

/-- A run that fails, is dry or extracts nothing changes nothing. Any other run makes and changes
only the files that it tells as written, and the input if it tells that as replaced; besides, there
can be new directories. -/
theorem changes_of_run (tree : FileTree) (job : Job) :
    ((∃ failure, (tree.run job).outcome = .error failure) ∨ job.dryRun = true ∨
        (∃ summary, (tree.run job).outcome = .ok summary ∧ summary.counts.extracted = 0) →
      (tree.run job).tree = tree) ∧
    ∀ summary, (tree.run job).outcome = .ok summary →
      ∀ place, (tree.run job).tree.node? place ≠ tree.node? place →
        (tree.node? place = none ∧ (tree.run job).tree.node? place = some .directory) ∨
        (∃ file ∈ summary.files, file.status = .written ∧
          (tree.run job).tree.locate file.path = .ok place) ∨
        (summary.outcome = .replaced ∧ (tree.run job).tree.locate job.input = .ok place) := by
  cases hplan : Plan.ofJob tree.read job with
  | error failure =>
      refine ⟨fun _ => tree_eq_of_failure hplan, ?_⟩
      intro summary hsummary
      simp [run, hplan] at hsummary
  | ok plan =>
      have hjob := (Plan.surveys_of_ofJob hplan).job_eq
      have hcarry : (tree.run job).outcome = (tree.carryOut plan).outcome := by
        rw [run_of_plan hplan]
      refine ⟨?_, ?_⟩
      · intro hnothing
        rw [run_of_plan hplan]
        apply tree_carryOut_eq_self
        rcases hnothing with ⟨failure, hfailure⟩ | hdry | ⟨summary, hsummary, hnone⟩
        · rw [hcarry] at hfailure
          cases hfailure
        · exact .inl (hjob ▸ hdry)
        · rw [hcarry] at hsummary
          obtain rfl := Except.ok.inj hsummary
          exact .inr (List.length_eq_zero_iff.mp hnone)
      · intro summary hsummary place hne
        rw [hcarry] at hsummary
        obtain rfl := Except.ok.inj hsummary
        rw [run_of_plan hplan] at hne ⊢
        rcases (tree.wrote_changes_carryOut plan).exists_locate_of_ne hne with
          hnew | ⟨change, hmem, hlocate⟩
        · exact .inl hnew
        · rcases List.mem_append.mp hmem with hfile | hinput
          · obtain ⟨result, hresult, hchange⟩ := List.mem_flatMap.mp hfile
            obtain ⟨rfl, hwritten⟩ := Attempt.eq_of_mem_changes hchange
            refine .inr (.inl ⟨result.report, List.mem_map_of_mem hresult, ?_, hlocate⟩)
            rw [FileResult.report, hwritten]
            rfl
          · obtain ⟨rfl, hwritten⟩ := Attempt.eq_of_mem_changes hinput
            rw [← hjob]
            exact .inr (.inr ⟨outcome_eq_replaced hwritten, hlocate⟩)

end FileTree

end MemberSplit
