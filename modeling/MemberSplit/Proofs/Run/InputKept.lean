import MemberSplit.Proofs.Run.Writings

/-!
# What becomes of an input that is not replaced

A run that fails, or that leaves its input to itself, still writes its files. So the input is as it
was unless one of them is at its place; and then it still has its permissions.
-/

namespace MemberSplit.FileTree

variable {tree : FileTree} {job : Job}

theorem tree_eq_of_failure {failure : Failure × List Log.Line}
    (hplan : Plan.ofJob tree.read job = .error failure) : (tree.run job).tree = tree := by
  simp [run, hplan]

/-- An input that can be planned for has been read. -/
theorem exists_read_of_plan {plan : Plan} (hplan : Plan.ofJob tree.read job = .ok plan) :
    ∃ bytes, tree.read job.input = .ok bytes := by
  obtain ⟨bytes, hread, -⟩ := SourceFile.read_eq_ok (Plan.surveys_of_ofJob hplan).source_eq
  exact ⟨bytes, hread⟩

/-- What has been written to some files is what was planned for some of them. -/
theorem exists_file_of_mem_writings {results : List FileResult} {writing : Writing}
    (hmem : writing ∈ FileResult.writings results) :
    ∃ file ∈ results.map FileResult.file, file.writing = writing := by
  obtain ⟨result, hresult, hwriting⟩ := List.mem_flatMap.mp hmem
  refine ⟨result.file, List.mem_map_of_mem hresult, ?_⟩
  cases hattempt : result.attempt with
  | done status =>
      rw [hattempt] at hwriting
      exact (List.mem_singleton.mp hwriting).symm
  | planned => simp [hattempt, Attempt.written] at hwriting
  | failed error => simp [hattempt, Attempt.written] at hwriting

theorem files_eq_nil {plan : Plan} (hnone : plan.definitions = []) : plan.files = [] := by
  simp [Plan.files, Plan.grouping, Plan.classified, hnone, Grouping.ofClassified,
    Placement.firsts]

/-- A run that only plans is dry, and one with nothing to split has no file to write. -/
theorem writings_eq_nil_of_outcome {plan : Plan} {result : InputOutcome}
    (hplan : Plan.ofJob tree.read job = .ok plan)
    (h : (tree.run job).inputOutcome? = some result)
    (hresult : result = .planned ∨ result = .nothingToSplit) :
    FileResult.writings (tree.writeFiles plan).1 = [] := by
  rw [run_of_plan hplan, inputOutcome?_carryOut] at h
  obtain rfl := Option.some.inj h
  cases hdry : plan.survey.job.dryRun with
  | true => exact writings_writeFiles_of_dryRun hdry
  | false =>
      obtain ⟨hnone, -⟩ | ⟨-, -, -, hdecide⟩ | ⟨-, -, hdecide⟩ :=
        plan.decide_cases (tree.writeFiles plan).1
      · rw [writeFiles, if_neg (by simp [hdry]), files_eq_nil hnone]
        rfl
      · simp [hdecide, Plan.outcome] at hresult
      · -- The input would be replaced, which neither of the outcomes says.
        rw [hdry, if_neg (by simp)] at hdecide
        rw [hdecide] at hresult
        simp only [replaceInput] at hresult
        cases hattempt : ((tree.writeFiles plan).2.attempt plan.input plan.aggregator.text).1 with
        | planned => exact absurd hattempt (attempt_ne_planned _ _ _)
        | done status => cases status <;> simp [hattempt, Plan.outcome] at hresult
        | failed error => simp [hattempt, Plan.outcome] at hresult

/-- After a run that failed or did not replace its input, the input is as it was exactly if the
last text that was written to a file at its place, if any, is what it held. So it is as it was if
the run failed, only planned or had nothing to split, or if no file of the plan is at its place. Its
permissions are always as they were. -/
theorem find_input_iff_of_ne_replaced (h : (tree.run job).inputOutcome? ≠ some .replaced) :
    ((tree.run job).tree.find job.input = tree.find job.input ↔
      ∀ plan, Plan.ofJob tree.read job = .ok plan → ∀ text,
        tree.lastText? (FileResult.writings (tree.writeFiles plan).1)
            (tree.placeOf job.input) = some text →
          tree.read job.input = .ok (Utf8.encode text)) ∧
    ((tree.run job).inputOutcome? ∈ [none, some .planned, some .nothingToSplit] →
      (tree.run job).tree.find job.input = tree.find job.input) ∧
    ((∀ plan, Plan.ofJob tree.read job = .ok plan →
        ∀ file ∈ plan.files, tree.placeOf file.path ≠ tree.placeOf job.input) →
      (tree.run job).tree.find job.input = tree.find job.input) ∧
    (tree.run job).tree.mode? job.input = tree.mode? job.input := by
  cases hplan : Plan.ofJob tree.read job with
  | error failure => simp [tree_eq_of_failure hplan]
  | ok plan =>
      have hwrote := wrote_of_ne_replaced hplan h
      obtain ⟨bytes, hread⟩ := exists_read_of_plan hplan
      have hkept := hwrote.find_eq_iff hread
      refine ⟨?_, ?_, ?_, ?_⟩
      · simpa [hread] using hkept
      · intro hmem
        have hnone : (tree.run job).inputOutcome? ≠ none := by
          rw [run_of_plan hplan, inputOutcome?_carryOut]
          simp
        have hnothing : FileResult.writings (tree.writeFiles plan).1 = [] := by
          simp only [List.mem_cons, List.not_mem_nil, or_false] at hmem
          rcases hmem with hfailed | hplanned | hnothing
          · exact absurd hfailed hnone
          · exact writings_eq_nil_of_outcome hplan hplanned (.inl rfl)
          · exact writings_eq_nil_of_outcome hplan hnothing (.inr rfl)
        apply hkept.mpr
        intro text htext
        rw [hnothing] at htext
        simp [lastText?] at htext
      · intro hother
        apply hkept.mpr
        intro text htext
        obtain ⟨writing, hmem, hplace, -⟩ := exists_mem_of_lastText?_eq_some htext
        obtain ⟨file, hfile, rfl⟩ := exists_file_of_mem_writings hmem
        rw [map_file_writeFiles] at hfile
        exact absurd hplace (hother plan rfl file hfile)
      · exact hwrote.mode?_eq hread

/-- Code between the definitions keeps the input from being replaced, but a file at its place has
been written before that is known. -/
theorem find_input_iff_of_orphaned_code :
    let tree := ofFile "Foo_core.cpp" "void Foo::bar() {}\nint stray;\n"
    let job : Job :=
      { input := "Foo_core.cpp"
        config :=
          { owner := some "Foo", outputDirectory := ".", coreFunctions := .ofList ["bar"] } }
    (tree.run job).inputOutcome? = some (.withheld [.orphanedCode 1]) ∧
      (tree.run job).tree.find job.input ≠ tree.find job.input ∧
      (tree.run job).tree.mode? job.input = tree.mode? job.input := by
  intro tree job
  have h : (tree.run job).inputOutcome? = some (.withheld [.orphanedCode 1]) := by
    decide +kernel
  have hne : (tree.run job).inputOutcome? ≠ some .replaced := by simp [h]
  obtain ⟨hkept, -, -, hmode⟩ := find_input_iff_of_ne_replaced hne
  obtain ⟨plan, hplan, -⟩ := exists_plan_of_inputOutcome? h
  have hwritten : ∀ plan ∈ (Plan.ofJob tree.read job).toOption,
      ∃ text ∈ tree.lastText? (FileResult.writings (tree.writeFiles plan).1)
          (tree.placeOf job.input),
        (tree.read job.input).toOption ≠ some (Utf8.encode text) := by
    decide +kernel
  refine ⟨h, ?_, hmode⟩
  intro hsame
  obtain ⟨text, htext, hother⟩ := hwritten plan (by rw [hplan]; rfl)
  have hread := hkept.mp hsame plan hplan text htext
  rw [hread] at hother
  exact hother rfl

end MemberSplit.FileTree
