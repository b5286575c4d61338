import MemberSplit.Proofs.Aggregator.Lines
import MemberSplit.Proofs.Destination.Location
import MemberSplit.Proofs.FileTree.Appending
import MemberSplit.Proofs.Run.Repeat

/-!
# How often an input refers to its files

A run keeps what stands in front of the first definition as it is and refers to each of its files
behind that, without looking for references that are there already. So each run adds one reference
to each of its files, and an input that is split again refers twice to a file of both runs.
-/

namespace MemberSplit

namespace Plan

variable {plan : Plan}

/-- What tells tidy paths apart tells the destinations apart. -/
theorem nodup_map_of_path {α : Type} (plan : Plan) {label : Path → α}
    (h : ∀ {first second : Path}, FileNaming.tidy first = first → FileNaming.tidy second = second →
      label first = label second → first = second) :
    (plan.grouping.destinations.map fun destination => label destination.path).Nodup := by
  have hpaths := Grouping.nodup_paths_ofClassified plan.namer plan.preamble plan.classified
  refine List.Nodup.map_on ?_ hpaths.of_map
  intro first hfirst second hsecond heq
  have hpath := h (tidy_path hfirst) (tidy_path hsecond) heq
  exact List.inj_on_of_nodup_map hpaths hfirst hsecond hpath

/-- The files are referred to by different lines if these show the paths. -/
theorem nodup_references
    (htemplate : Text.contains plan.config.referenceTemplate Config.pathPlace = true) :
    (plan.files.map PlannedFile.reference).Nodup := by
  rw [references_eq]
  exact plan.nodup_map_of_path fun hfirst hsecond =>
    Location.eq_of_reference_eq htemplate hfirst hsecond

theorem reference_ne_nil
    (htemplate : plan.config.referenceTemplate = ({} : Config).referenceTemplate)
    {reference : Text} (hmem : reference ∈ plan.files.map PlannedFile.reference) :
    reference ≠ [] := by
  rw [references_eq, htemplate] at hmem
  obtain ⟨destination, -, rfl⟩ := List.mem_map.mp hmem
  rw [Location.reference_default]
  simp

/-- The aggregator adds each reference once to what it keeps. -/
theorem countLine_aggregator (hlead : plan.lead.EndsLine)
    (htemplate : plan.config.referenceTemplate = ({} : Config).referenceTemplate)
    (hlines : ∀ reference ∈ plan.files.map PlannedFile.reference, '\n' ∉ reference)
    {reference : Text} (hmem : reference ∈ plan.files.map PlannedFile.reference) :
    Text.countLine reference plan.aggregator.text =
      Text.countLine reference (Aggregator.closeLines plan.config.banner) +
        Text.countLine reference plan.lead + 1 := by
  have hne := reference_ne_nil htemplate hmem
  have honce : Text.countLine reference (Aggregator.closeLines plan.aggregator.references) = 1 :=
    (Aggregator.countLine_closeLines hlines hne).trans
      (List.count_eq_one_of_mem (nodup_references (htemplate ▸ by decide)) hmem)
  rw [Aggregator.countLine_text hlead hne, honce]
  rfl

end Plan

namespace FileTree

/-- The references of the summary are the references of the plan. -/
theorem references_of_outcome {tree : FileTree} {job : Job} {plan : Plan} {summary : Summary}
    (hplan : Plan.ofJob tree.read job = .ok plan) (h : (tree.run job).outcome = .ok summary) :
    summary.files.map FileReport.reference = plan.files.map PlannedFile.reference := by
  rw [run_of_plan hplan] at h
  obtain rfl := Except.ok.inj h
  have hfiles := congrArg (List.map PlannedFile.reference) (tree.map_file_writeFiles plan)
  rw [List.map_map] at hfiles
  exact List.map_map.trans hfiles

/-- A run without force keeps its lead and adds one reference to each of its files. So the input
has the reference one time more than the banner and the lead have it, and has it once exactly if
they do not have it. -/
theorem countLine_reference_of_replaced {tree : FileTree} {job : Job} {summary : Summary}
    (h : (tree.run job).outcome = .ok summary) (hreplaced : summary.outcome = .replaced)
    (hforce : job.force = false)
    (htemplate : job.config.referenceTemplate = ({} : Config).referenceTemplate)
    (hlines : ∀ file ∈ summary.files, '\n' ∉ file.reference) :
    ∃ plan text, Plan.ofJob tree.read job = .ok plan ∧
      plan.lead <+: plan.survey.source.text ∧
      (tree.run job).tree.read job.input = .ok (Utf8.encode text) ∧
      ∀ file ∈ summary.files,
        Text.countLine file.reference text =
            Text.countLine file.reference (Aggregator.closeLines job.config.banner) +
              Text.countLine file.reference plan.lead + 1 ∧
        (Text.countLine file.reference text = 1 ↔
          Text.countLine file.reference (Aggregator.closeLines job.config.banner) = 0 ∧
            Text.countLine file.reference plan.lead = 0) := by
  have houtcome : (tree.run job).inputOutcome? = some .replaced := by
    simp [RunResult.inputOutcome?, h, hreplaced]
  obtain ⟨plan, hplan, -⟩ := exists_plan_of_inputOutcome? houtcome
  have hsurveys := Plan.surveys_of_ofJob hplan
  obtain ⟨hne, -⟩ := reasons_eq_nil_of_run hplan houtcome hforce (.inl rfl)
  obtain ⟨hsource, hlead⟩ := Plan.source_eq_lead_append_spell (Plan.laidOut hsurveys) hne
  have hreferences := references_of_outcome hplan h
  have hlines' : ∀ reference ∈ plan.files.map PlannedFile.reference, '\n' ∉ reference := by
    rw [← hreferences]
    intro reference hmem
    obtain ⟨file, hfile, rfl⟩ := List.mem_map.mp hmem
    exact hlines file hfile
  rw [← hsurveys.config_eq] at htemplate ⊢
  refine ⟨plan, plan.aggregator.text, hplan, ?_,
    read_input_of_outcome hplan houtcome (.inl rfl), ?_⟩
  · rw [hsource]
    exact List.prefix_append _ _
  · intro file hfile
    have hmem : file.reference ∈ plan.files.map PlannedFile.reference := by
      rw [← hreferences]
      exact List.mem_map_of_mem hfile
    have hcount := Plan.countLine_aggregator hlead htemplate hlines' hmem
    exact ⟨hcount, by omega⟩

/-- A source with an include in front of its only definition. -/
def withLead : FileTree :=
  ofFile "Foo.cpp" "#include \"Foo.h\"\n\nvoid Foo::a() {}\n"

/-- The summary of a run on that source, which has no reference yet. -/
def withLeadSummary : { summary : Summary //
    (withLead.run { input := "Foo.cpp" }).outcome = .ok summary ∧ summary.outcome = .replaced ∧
      summary.files.length = 1 ∧
      ∀ file ∈ summary.files, '\n' ∉ file.reference ∧
        Text.countLine file.reference (Aggregator.closeLines ({} : Config).banner) = 0 ∧
        ∀ plan ∈ (Plan.ofJob withLead.read { input := "Foo.cpp" }).toOption,
          Text.countLine file.reference plan.lead = 0 } :=
  ⟨_, RunResult.outcome_eq_ok (by decide +kernel), by decide +kernel⟩

theorem countLine_reference_of_replaced_with_lead :
    ∃ summary text, (withLead.run { input := "Foo.cpp" }).outcome = .ok summary ∧
      summary.files.length = 1 ∧
      (withLead.run { input := "Foo.cpp" }).tree.read "Foo.cpp" = .ok (Utf8.encode text) ∧
      ∀ file ∈ summary.files, Text.countLine file.reference text = 1 := by
  obtain ⟨summary, hok, hreplaced, hlength, hfiles⟩ := withLeadSummary
  obtain ⟨plan, text, hplan, -, hread, hcount⟩ := countLine_reference_of_replaced hok hreplaced
    rfl rfl fun file hmem => (hfiles file hmem).1
  refine ⟨summary, text, hok, hlength, hread, ?_⟩
  intro file hmem
  obtain ⟨-, hbanner, hlead⟩ := hfiles file hmem
  exact (hcount file hmem).2.mpr ⟨hbanner, hlead plan (by rw [hplan]; rfl)⟩

/-- What can be computed of a run that replaced its input: how often that has the reference to one
of the files. -/
theorem exists_countLine_of_toOption {result : RunResult} {path : Path} {count : Nat}
    (hok : result.outcome.toOption.isSome = true ∧ (result.tree.read path).toOption.isSome = true)
    (h : ∀ summary ∈ result.outcome.toOption, summary.outcome = .replaced ∧
      ∀ bytes ∈ (result.tree.read path).toOption,
        bytes = Utf8.encode (Utf8.decodeLossy bytes) ∧ ∃ file ∈ summary.files,
          Text.countLine file.reference (Utf8.decodeLossy bytes) = count) :
    ∃ summary text, result.outcome = .ok summary ∧ summary.outcome = .replaced ∧
      result.tree.read path = .ok (Utf8.encode text) ∧
      ∃ file ∈ summary.files, Text.countLine file.reference text = count := by
  obtain ⟨hok, hok'⟩ := hok
  cases hsummary : result.outcome with
  | error failure => simp [hsummary, Except.toOption] at hok
  | ok summary =>
      cases hread : result.tree.read path with
      | error failure => simp [hread, Except.toOption] at hok'
      | ok bytes =>
          obtain ⟨hreplaced, hbytes⟩ := h summary (by rw [hsummary]; rfl)
          obtain ⟨hencode, hcount⟩ := hbytes bytes (by rw [hread]; rfl)
          exact ⟨summary, Utf8.decodeLossy bytes, rfl, hreplaced, congrArg _ hencode, hcount⟩

/-- An aggregator that was added to is kept when it is split again, with its references, so a file
of both runs is referred to twice. And a reference with a newline is no line at all. -/
theorem exists_reference_twice_by_second_run :
    let tree := ofFile "Foo.cpp" "void Foo::a() {}\n"
    let job : Job := { input := "Foo.cpp" }
    let edited := (tree.run job).tree.append job.input "void Foo::b() {}\n"
    let broken : Job := { input := "Foo.cpp", config := { outputDirectory := "a\nb" } }
    (tree.run job).inputOutcome? = some .replaced ∧
      (∃ summary text, (edited.run job).outcome = .ok summary ∧ summary.outcome = .replaced ∧
        (edited.run job).tree.read job.input = .ok (Utf8.encode text) ∧
        ∃ file ∈ summary.files, Text.countLine file.reference text = 2) ∧
      ∃ summary text, (tree.run broken).outcome = .ok summary ∧ summary.outcome = .replaced ∧
        (tree.run broken).tree.read broken.input = .ok (Utf8.encode text) ∧
        ∃ file ∈ summary.files, Text.countLine file.reference text = 0 := by
  intro tree job edited broken
  refine ⟨by decide +kernel, ?_, ?_⟩
  · exact exists_countLine_of_toOption (by decide +kernel) (by decide +kernel)
  · exact exists_countLine_of_toOption (by decide +kernel) (by decide +kernel)

end FileTree

end MemberSplit
