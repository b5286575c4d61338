import MemberSplit.Proofs.Run.Conservation
import MemberSplit.Proofs.Run.Writings

/-!
# What the files of a run hold afterwards

A run writes its files one after the other and the input last, each as a whole. Two paths can name
one place, and the input can be at the place of a file; the later writing then takes the place of
the earlier one. So a definition is in its file afterwards exactly if it is part of what was
written there last, although the plan has moved all of the code.
-/

namespace MemberSplit

namespace Plan

/-- Each file of the plan holds its definitions. -/
def Stored (plan : Plan) (tree : FileTree) : Prop :=
  ∀ file ∈ plan.files, ∀ definition ∈ file.destination.definitions,
    tree.Holds file.path definition.text

/-- Without repetitions each definition goes to a file. -/
theorem exists_file_of_mem {plan : Plan} (hconserves : plan.Conserves) {definition : Definition}
    (hmem : definition ∈ plan.definitions) :
    ∃ file ∈ plan.files, definition ∈ file.destination.definitions := by
  obtain ⟨destination, ⟨hdestination, hdefinition⟩, -⟩ := hconserves.placed definition hmem
  exact ⟨plan.plannedFile destination, List.mem_map_of_mem hdestination, hdefinition⟩

theorem writing_mem_writings {plan : Plan} {file : PlannedFile} (hmem : file ∈ plan.files) :
    file.writing ∈ plan.writings :=
  List.mem_append_left _ (List.mem_map_of_mem hmem)

theorem definition_infix_of_mem {plan : Plan} {file : PlannedFile} (hmem : file ∈ plan.files)
    {definition : Definition} (hdefinition : definition ∈ file.destination.definitions) :
    definition.text <:+: file.writing.text := by
  obtain ⟨destination, -, rfl⟩ := List.mem_map.mp hmem
  exact Destination.text_infix hdefinition

end Plan

namespace FileTree

/-- The files of the summary are the files of the plan. -/
theorem paths_of_outcome {tree : FileTree} {job : Job} {plan : Plan} {summary : Summary}
    (hplan : Plan.ofJob tree.read job = .ok plan) (h : (tree.run job).outcome = .ok summary) :
    summary.files.map FileReport.path = plan.files.map PlannedFile.path := by
  rw [run_of_plan hplan] at h
  obtain rfl := Except.ok.inj h
  have hfiles := congrArg (List.map PlannedFile.path) (tree.map_file_writeFiles plan)
  rw [List.map_map] at hfiles
  exact List.map_map.trans hfiles

/-- If all writings of a plan go to different places, none of them is lost. -/
theorem stored_of_nodup {tree later : FileTree} {plan : Plan}
    (hwrote : Wrote tree plan.writings later)
    (hnodup : (plan.writings.map fun writing => tree.placeOf writing.path).Nodup) :
    plan.Stored later := by
  intro file hfile definition hdefinition
  have hmem := Plan.writing_mem_writings hfile
  apply (hwrote.holds_iff_of_mem hmem).mpr
  exact ⟨_, lastText?_eq_of_nodup hnodup hmem, Plan.definition_infix_of_mem hfile hdefinition⟩

/-- After a run without force that replaced its input, a file holds a definition that went to it
exactly if the last text that was planned for its place does. If all places are different, no
definition is missing. -/
theorem holds_iff_of_replaced {tree : FileTree} {job : Job}
    (h : (tree.run job).inputOutcome? = some .replaced) (hforce : job.force = false) :
    ∃ plan, Plan.ofJob tree.read job = .ok plan ∧
      (∀ summary, (tree.run job).outcome = .ok summary →
        summary.files.map FileReport.path = plan.files.map PlannedFile.path) ∧
      (∀ definition ∈ plan.definitions,
        ∃ file ∈ plan.files, definition ∈ file.destination.definitions) ∧
      (∀ file ∈ plan.files, ∀ definition ∈ file.destination.definitions,
        ((tree.run job).tree.Holds file.path definition.text ↔
          ∃ text, tree.lastText? plan.writings (tree.placeOf file.path) = some text ∧
            definition.text <:+: text)) ∧
      ((plan.writings.map fun writing => tree.placeOf writing.path).Nodup →
        plan.Stored (tree.run job).tree) := by
  obtain ⟨plan, hplan, hwrote⟩ := wrote_of_replaced hforce h
  obtain ⟨hne, hgate⟩ := reasons_eq_nil_of_run hplan h hforce (.inl rfl)
  have hconserves := Plan.conserves_of_gate (Plan.surveys_of_ofJob hplan) hne hgate
  refine ⟨plan, hplan, fun _ => paths_of_outcome hplan, ?_, ?_, stored_of_nodup hwrote⟩
  · intro definition hmem
    exact Plan.exists_file_of_mem hconserves hmem
  · intro file hfile definition _
    exact hwrote.holds_iff_of_mem (Plan.writing_mem_writings hfile)

/-- A source at the place of the only file that its code goes to. -/
def atCorePath : FileTree :=
  ofFile "Foo_core.cpp" "void Foo::bar() {}\n"

/-- A job that splits that source into its own directory. -/
def splitInPlace : Job where
  input := "Foo_core.cpp"
  config := { owner := some "Foo", outputDirectory := ".", coreFunctions := .ofList ["bar"] }

/-- Of what that job has for the place of the file, the last text is the aggregator. -/
theorem exists_overwritten {plan : Plan}
    (hplan : Plan.ofJob atCorePath.read splitInPlace = .ok plan) :
    ∃ file ∈ plan.files, ∃ definition ∈ file.destination.definitions,
      ¬ ∃ text, atCorePath.lastText? plan.writings (atCorePath.placeOf file.path) = some text ∧
        definition.text <:+: text := by
  have hlast : ∀ plan ∈ (Plan.ofJob atCorePath.read splitInPlace).toOption,
      ∃ file ∈ plan.files, ∃ definition ∈ file.destination.definitions,
        ∀ text ∈ atCorePath.lastText? plan.writings (atCorePath.placeOf file.path),
          ¬ definition.text <:+: text := by
    decide +kernel
  obtain ⟨file, hfile, definition, hdefinition, hmissing⟩ := hlast plan (by rw [hplan]; rfl)
  refine ⟨file, hfile, definition, hdefinition, ?_⟩
  rintro ⟨text, htext, hpart⟩
  exact hmissing text htext hpart

/-- A file that is at the place of its input is taken by the aggregator, and its definition is
nowhere. -/
theorem holds_iff_of_replaced_of_input_path :
    let tree := ofFile "Foo_core.cpp" "void Foo::bar() {}\n"
    let job : Job :=
      { input := "Foo_core.cpp"
        config :=
          { owner := some "Foo", outputDirectory := ".", coreFunctions := .ofList ["bar"] } }
    (tree.run job).inputOutcome? = some .replaced ∧
      ∃ plan, Plan.ofJob tree.read job = .ok plan ∧
        ∃ file ∈ plan.files, ∃ definition ∈ file.destination.definitions,
          ¬ (tree.run job).tree.Holds file.path definition.text := by
  intro tree job
  have h : (tree.run job).inputOutcome? = some .replaced := by decide +kernel
  obtain ⟨plan, hplan, -, -, hholds, -⟩ := holds_iff_of_replaced h rfl
  obtain ⟨file, hfile, definition, hdefinition, hmissing⟩ := exists_overwritten hplan
  exact ⟨h, plan, hplan, file, hfile, definition, hdefinition,
    (hholds file hfile definition hdefinition).not.mpr hmissing⟩

/-- What a run without force does with the code if it replaces its input, or would replace it. What
it read is UTF-8, and its plan moves all of the code once. Unless the run was dry, the input holds
the aggregator then, and a file holds a definition that went to it exactly if the last text that was
planned for its place does. So nothing is missing on the disk if all places are different; but a
file can be written over another one, and the input over a file. -/
theorem conserves_of_run {tree : FileTree} {job : Job} {result : InputOutcome}
    (h : (tree.run job).inputOutcome? = some result) (hforce : job.force = false)
    (hresult : result = .replaced ∨ result = .unchanged ∨ result = .planned) :
    ∃ plan, Plan.ofJob tree.read job = .ok plan ∧
      (∃ bytes, tree.read job.input = .ok bytes ∧
        Utf8.decode? bytes = some plan.survey.source.text) ∧
      plan.Conserves ∧
      (result ≠ .planned →
        (tree.run job).tree.read job.input = .ok (Utf8.encode plan.aggregator.text) ∧
        (∀ file ∈ plan.files, ∀ definition ∈ file.destination.definitions,
          ((tree.run job).tree.Holds file.path definition.text ↔
            ∃ text, tree.lastText? plan.writings (tree.placeOf file.path) = some text ∧
              definition.text <:+: text)) ∧
        ((plan.writings.map fun writing => tree.placeOf writing.path).Nodup →
          plan.Stored (tree.run job).tree)) := by
  obtain ⟨plan, hplan, -⟩ := exists_plan_of_inputOutcome? h
  have hsurveys := Plan.surveys_of_ofJob hplan
  obtain ⟨hne, hgate⟩ := reasons_eq_nil_of_run hplan h hforce hresult
  refine ⟨plan, hplan, ?_, Plan.conserves_of_gate hsurveys hne hgate, ?_⟩
  · obtain ⟨bytes, hread, htext, hlossy⟩ := SourceFile.read_eq_ok hsurveys.source_eq
    have hvalid : Utf8.isValid bytes = true := by
      have hgateLossy : plan.survey.source.lossy = false :=
        (Gate.reasons_eq_nil_iff.mp hgate).2.2.2.2.2
      simpa [hlossy] using hgateLossy
    exact ⟨bytes, hread, by rw [htext, Utf8.decode?_eq_some_of_isValid hvalid]⟩
  · intro hnot
    have hdone : result = .replaced ∨ result = .unchanged :=
      hresult.imp_right fun hothers => hothers.resolve_right hnot
    have hwrote := wrote_of_outcome hplan h hforce hdone
    refine ⟨read_input_of_outcome hplan h hdone, ?_, stored_of_nodup hwrote⟩
    intro file hfile definition _
    exact hwrote.holds_iff_of_mem (Plan.writing_mem_writings hfile)

/-- A run that stores what it moves, and one that moves as much and whose input takes the place of
its only file. -/
theorem conserves_of_run_beside_and_over_input :
    (let tree := ofFile "Foo.cpp"
      "#include \"Foo.h\"\n\nint Foo::a() { return 1; }\n// then\nvoid Foo::b() {}\n"
    let job : Job := { input := "Foo.cpp", config := { coreFunctions := .ofList ["b"] } }
    (tree.run job).inputOutcome? = some .replaced ∧
      ∃ plan, Plan.ofJob tree.read job = .ok plan ∧ plan.Conserves ∧
        (tree.run job).tree.read job.input = .ok (Utf8.encode plan.aggregator.text) ∧
        plan.Stored (tree.run job).tree) ∧
    (atCorePath.run splitInPlace).inputOutcome? = some .replaced ∧
      ∃ plan, Plan.ofJob atCorePath.read splitInPlace = .ok plan ∧ plan.Conserves ∧
        ∃ file ∈ plan.files, ∃ definition ∈ file.destination.definitions,
          ¬ (atCorePath.run splitInPlace).tree.Holds file.path definition.text := by
  refine ⟨?_, ?_⟩
  · intro tree job
    have houtcome : (tree.run job).inputOutcome? = some .replaced := by decide +kernel
    obtain ⟨plan, hplan, -, hconserves, hdisk⟩ := conserves_of_run houtcome rfl (.inl rfl)
    obtain ⟨hread, -, hstored⟩ := hdisk (by simp)
    have hplaces : ∀ plan ∈ (Plan.ofJob tree.read job).toOption,
        (plan.writings.map fun writing => tree.placeOf writing.path).Nodup := by
      decide +kernel
    exact ⟨houtcome, plan, hplan, hconserves, hread,
      hstored (hplaces plan (by rw [hplan]; rfl))⟩
  · have houtcome : (atCorePath.run splitInPlace).inputOutcome? = some .replaced := by
      decide +kernel
    obtain ⟨plan, hplan, -, hconserves, hdisk⟩ := conserves_of_run houtcome rfl (.inl rfl)
    obtain ⟨-, hholds, -⟩ := hdisk (by simp)
    obtain ⟨file, hfile, definition, hdefinition, hmissing⟩ := exists_overwritten hplan
    exact ⟨houtcome, plan, hplan, hconserves, file, hfile, definition, hdefinition,
      (hholds file hfile definition hdefinition).not.mpr hmissing⟩

end FileTree

end MemberSplit
