import Mathlib.Data.List.Nodup
import MemberSplit.Proofs.Aggregator.Loss
import MemberSplit.Proofs.Destination.Partition
import MemberSplit.Proofs.Run.Steps

/-!
# Conservation of code

If the gate has no objection, a plan moves the code of its input without a loss. The input is its
lead, its definitions and gaps without code; the lead is kept in the aggregator, and each definition
goes to exactly one destination, whose text has it as it is written. Whether the files hold these
texts afterwards depends on their places.
-/

namespace MemberSplit

namespace Plan

variable {plan : Plan}

/-- The path of the file that a definition goes to, seen from the output directory. -/
def pathFor (plan : Plan) (definition : Definition) : Path :=
  plan.namer.path (plan.config.classify definition).1

/-- The plan moves all code of its input, and moves it once. -/
structure Conserves (plan : Plan) : Prop where
  /-- What is neither in the lead nor in a definition has no code. -/
  source : ∃ gaps, gaps.length = plan.definitions.length ∧
    plan.survey.source.text = plan.lead ++ Definition.spell plan.definitions gaps ∧
    ∀ gap ∈ gaps, Lexical.firstCode? gap = none
  aggregator : plan.aggregator.text =
    Aggregator.closeLines plan.config.banner ++ plan.lead ++
      Aggregator.closeLines (plan.grouping.destinations.map fun destination =>
        Location.reference plan.config.referenceTemplate plan.config.outputDirectory
          destination.path)
  /-- The destinations come in the order in which the definitions first need them. -/
  order : plan.grouping.destinations.map Destination.path =
    (plan.definitions.map plan.pathFor).eraseDups
  placed : ∀ definition ∈ plan.definitions,
    ∃! destination, destination ∈ plan.grouping.destinations ∧
      definition ∈ destination.definitions
  once : (plan.grouping.destinations.flatMap Destination.definitions).Perm plan.definitions
  carried : ∀ destination ∈ plan.grouping.destinations, ∀ definition ∈ destination.definitions,
    definition.text <:+: destination.text

theorem laidOut {read : Reader} {job : Job} (h : Surveys read job plan) :
    Definition.LaidOut plan.survey.source.text 0 plan.definitions := by
  rw [definitions, h.extraction_eq]
  exact Extractor.laidOut_definitions _ _

theorem lead_eq_takeBytes {first : Definition} {rest : List Definition}
    (h : plan.definitions = first :: rest) :
    plan.lead = plan.survey.source.text.takeBytes first.start := by
  rw [definitions] at h
  simp only [lead, Extraction.leadLength, h]

/-- The first definition begins where the lead ends. -/
theorem start_eq_byteLength_lead {first : Definition} {rest : List Definition}
    (hlaid : Definition.LaidOut plan.survey.source.text 0 plan.definitions)
    (hdefinitions : plan.definitions = first :: rest) : first.start = plan.lead.byteLength := by
  rw [lead_eq_takeBytes hdefinitions]
  rw [hdefinitions] at hlaid
  obtain ⟨-, ⟨before, after, hsource, hstart, -⟩, -⟩ := hlaid
  rw [← hstart, hsource, Text.takeBytes_append]

/-- The source is cut into its lead, its definitions and their gaps. -/
theorem source_eq_lead_append_spell
    (hlaid : Definition.LaidOut plan.survey.source.text 0 plan.definitions)
    (hne : plan.definitions ≠ []) :
    plan.survey.source.text = plan.lead ++ Definition.spell plan.definitions
        (Definition.gapTexts plan.survey.source.text plan.definitions) ∧
      plan.lead.EndsLine := by
  cases hdefinitions : plan.definitions with
  | nil => exact absurd hdefinitions hne
  | cons first rest =>
      rw [lead_eq_takeBytes hdefinitions]
      rw [hdefinitions] at hlaid
      exact Definition.takeBytes_append_spell hlaid

theorem references_eq : plan.files.map PlannedFile.reference =
    plan.grouping.destinations.map fun destination =>
      Location.reference plan.config.referenceTemplate plan.config.outputDirectory
        destination.path := by
  rw [files, List.map_map]
  rfl

/-- A placement is at the path for its definition. -/
theorem path_eq_pathFor {placement : Placement}
    (hmem : placement ∈ plan.classified.map (Placement.ofClassified plan.namer)) :
    placement.path = plan.pathFor placement.definition := by
  simp only [classified, List.map_map, List.mem_map] at hmem
  obtain ⟨definition, -, rfl⟩ := hmem
  rfl

theorem definitions_eq : (plan.classified.map (Placement.ofClassified plan.namer)).map
    Placement.definition = plan.definitions := by
  simp only [classified, List.map_map]
  exact List.map_id' plan.definitions

/-- A destination holds definitions of the input only, and those are at its path. -/
theorem pathFor_of_mem {destination : Destination} (hmem : destination ∈ plan.grouping.destinations)
    {definition : Definition} (hdefinition : definition ∈ destination.definitions) :
    destination.path = plan.pathFor definition := by
  rw [Grouping.definitions_of_mem hmem] at hdefinition
  obtain ⟨placement, hplacement, rfl⟩ := List.mem_map.mp hdefinition
  obtain ⟨hkept, hpath⟩ := List.mem_filter.mp hplacement
  rw [← path_eq_pathFor ((Placement.firsts_sublist [] _).subset hkept)]
  exact (of_decide_eq_true hpath).symm

/-- Without repetitions the destinations hold all definitions, each of them once. -/
theorem flatMap_definitions_perm (hrepetitions : plan.grouping.repetitions = []) :
    (plan.grouping.destinations.flatMap Destination.definitions).Perm plan.definitions := by
  have hperm := Grouping.flatMap_definitions_perm plan.namer plan.preamble plan.classified
  rwa [Grouping.keptPlacements_eq hrepetitions, definitions_eq] at hperm

theorem paths_eq (hrepetitions : plan.grouping.repetitions = []) :
    plan.grouping.destinations.map Destination.path =
      (plan.definitions.map plan.pathFor).eraseDups := by
  have hplaced : (plan.classified.map (Placement.ofClassified plan.namer)).map Placement.path =
      plan.definitions.map plan.pathFor := by
    rw [← definitions_eq, List.map_map (g := plan.pathFor)]
    exact List.map_congr_left fun placement hmem => path_eq_pathFor hmem
  rw [grouping, Grouping.paths_ofClassified, Grouping.keptPlacements_eq hrepetitions, hplaced]

/-- Two destinations with a definition in common are one. -/
theorem eq_of_mem_definitions {first second : Destination}
    (hfirst : first ∈ plan.grouping.destinations) (hsecond : second ∈ plan.grouping.destinations)
    {definition : Definition} (hmem : definition ∈ first.definitions)
    (hmem' : definition ∈ second.definitions) : first = second := by
  have hpaths : first.path = second.path :=
    (pathFor_of_mem hfirst hmem).trans (pathFor_of_mem hsecond hmem').symm
  exact List.inj_on_of_nodup_map (Grouping.nodup_paths_ofClassified _ _ _) hfirst hsecond hpaths

theorem existsUnique_destination (hrepetitions : plan.grouping.repetitions = [])
    {definition : Definition} (hmem : definition ∈ plan.definitions) :
    ∃! destination, destination ∈ plan.grouping.destinations ∧
      definition ∈ destination.definitions := by
  have hsome := (flatMap_definitions_perm hrepetitions).mem_iff.mpr hmem
  obtain ⟨destination, hdestination, hdefinition⟩ := List.mem_flatMap.mp hsome
  refine ⟨destination, ⟨hdestination, hdefinition⟩, ?_⟩
  rintro other ⟨hother, hdefinition'⟩
  exact eq_of_mem_definitions hother hdestination hdefinition' hdefinition

/-- A silent gate means that the code is conserved. -/
theorem conserves_of_gate {read : Reader} {job : Job} {results : List FileResult}
    (hsurveys : Surveys read job plan) (hne : plan.definitions ≠ [])
    (hgate : (plan.gate results).reasons = []) : plan.Conserves := by
  -- A candidate whose body never closes stands in a gap, where it counts as orphaned code too.
  obtain ⟨-, hduplicates, -, -, horphaned, -⟩ := Gate.reasons_eq_nil_iff.mp hgate
  have hrepetitions : plan.grouping.repetitions = [] := List.length_eq_zero_iff.mp hduplicates
  obtain ⟨hsource, hline⟩ := source_eq_lead_append_spell (laidOut hsurveys) hne
  refine
    { source := ⟨_, Definition.length_gapTexts _ _, hsource, ?_⟩
      aggregator := ?_
      order := paths_eq hrepetitions
      placed := fun _ hmem => existsUnique_destination hrepetitions hmem
      once := flatMap_definitions_perm hrepetitions
      carried := fun _ _ _ hmem => Destination.text_infix hmem }
  · intro gap hgap
    exact Gap.firstCode?_eq_none_of_mem_gapTexts horphaned hgap
  · rw [← references_eq]
    exact Aggregator.text_eq hline

end Plan

end MemberSplit
