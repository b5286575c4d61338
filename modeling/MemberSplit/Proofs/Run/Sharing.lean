import MemberSplit.Proofs.Destination.Overload
import MemberSplit.Proofs.Destination.Sharing
import MemberSplit.Proofs.Run.Conservation

/-!
# Files of one group

A file has the group and the preamble of the first definition that goes there. So the files of a run
hold one group each exactly if no two of its definitions share a file without being in one group;
dropping the repetitions does not change that, for these are in the group of what is kept.
-/

namespace MemberSplit

namespace Plan

variable {plan : Plan} {read : Reader} {job : Job}

/-- All definitions in a file are in its group, and the file begins with the lines for that. -/
def HoldsOneGroup (plan : Plan) (destination : Destination) : Prop :=
  ∀ definition ∈ destination.definitions,
    (plan.config.classify definition).1 = destination.group ∧
      destination.preamble = plan.preamble.linesOf (plan.config.classify definition).1

theorem exists_definition_of_placement {placement : Placement}
    (hmem : placement ∈ Grouping.placements plan.namer plan.classified) :
    ∃ definition ∈ plan.definitions,
      placement = Placement.ofClassified plan.namer (plan.config.classified definition) := by
  obtain ⟨classified, hclassified, rfl⟩ := List.mem_map.mp hmem
  obtain ⟨definition, hdefinition, rfl⟩ := List.mem_map.mp hclassified
  exact ⟨definition, hdefinition, rfl⟩

theorem exists_definition_of_kept {placement : Placement}
    (hmem : placement ∈ Grouping.keptPlacements plan.namer plan.classified) :
    ∃ definition ∈ plan.definitions,
      placement = Placement.ofClassified plan.namer (plan.config.classified definition) :=
  exists_definition_of_placement ((Placement.firsts_sublist [] _).subset hmem)

/-- A file has the group of one of its definitions. -/
theorem exists_mem_of_group {destination : Destination}
    (hmem : destination ∈ plan.grouping.destinations) :
    destination.preamble = plan.preamble.linesOf destination.group ∧
      ∃ definition ∈ plan.definitions, definition ∈ destination.definitions ∧
        (plan.config.classify definition).1 = destination.group := by
  obtain ⟨hpreamble, placement, hkept, hpath, hgroup⟩ :=
    Grouping.exists_placement_of_group hmem
  obtain ⟨definition, hdefinition, rfl⟩ := exists_definition_of_kept hkept
  refine ⟨hpreamble, definition, hdefinition, ?_, hgroup⟩
  rw [Grouping.definitions_of_mem hmem]
  exact List.mem_map.mpr ⟨_, List.mem_filter.mpr ⟨hkept, decide_eq_true hpath⟩, rfl⟩

/-- At the path for a definition is a file that holds one of its group. -/
theorem Surveys.exists_alike_mem (h : Surveys read job plan) {definition : Definition}
    (hmem : definition ∈ plan.definitions) :
    ∃ destination ∈ plan.grouping.destinations, destination.path = plan.pathFor definition ∧
      ∃ alike ∈ destination.definitions,
        plan.config.classify alike = plan.config.classify definition := by
  have hplaced : Placement.ofClassified plan.namer (plan.config.classified definition) ∈
      Grouping.placements plan.namer plan.classified :=
    List.mem_map_of_mem (List.mem_map_of_mem hmem)
  obtain ⟨first, hkept, hcollides⟩ := Placement.exists_mem_firsts [] hplaced
  obtain ⟨hpath, hkey⟩ := Placement.collides_iff.mp hcollides
  obtain ⟨alike, halike, rfl⟩ := exists_definition_of_kept hkept
  obtain ⟨destination, ⟨hdestination, hhome⟩, -⟩ :=
    Grouping.existsUnique_destination plan.preamble hplaced
  refine ⟨destination, hdestination, hhome, alike, ?_, ?_⟩
  · rw [Grouping.definitions_of_mem hdestination]
    refine List.mem_map.mpr ⟨_, List.mem_filter.mpr ⟨hkept, ?_⟩, rfl⟩
    exact decide_eq_true (hpath.symm.trans hhome.symm)
  · have hoverload : definition.overload = alike.overload := hkey
    rw [definitions, h.extraction_eq] at hmem halike
    exact Extractor.classify_eq_of_overload_eq plan.config halike hmem hoverload.symm

/-- The files hold one group each exactly if no two groups of the input share a path. -/
theorem Surveys.holdsOneGroup_iff (h : Surveys read job plan) :
    (∀ destination ∈ plan.grouping.destinations, plan.HoldsOneGroup destination) ↔
      ∀ first ∈ plan.definitions, ∀ second ∈ plan.definitions,
        plan.pathFor first = plan.pathFor second →
          (plan.config.classify first).1 = (plan.config.classify second).1 := by
  constructor
  · intro hone first hfirst second hsecond hpath
    obtain ⟨destination, hdestination, hhome, alike, halike, hclassify⟩ :=
      h.exists_alike_mem hfirst
    obtain ⟨destination', hdestination', hhome', alike', halike', hclassify'⟩ :=
      h.exists_alike_mem hsecond
    obtain rfl : destination = destination' :=
      List.inj_on_of_nodup_map (Grouping.nodup_paths_ofClassified _ _ _) hdestination
        hdestination' (hhome.trans (hpath.trans hhome'.symm))
    rw [← hclassify, ← hclassify', (hone destination hdestination alike halike).1,
      (hone destination hdestination alike' halike').1]
  · intro hpaths destination hdestination definition hdefinition
    obtain ⟨hpreamble, leader, hleader, hleaderHeld, hgroup⟩ := exists_mem_of_group hdestination
    have hmem : definition ∈ plan.definitions := by
      rw [Grouping.definitions_of_mem hdestination] at hdefinition
      obtain ⟨placement, hplacement, rfl⟩ := List.mem_map.mp hdefinition
      obtain ⟨other, hother, rfl⟩ :=
        exists_definition_of_kept (List.mem_filter.mp hplacement).1
      exact hother
    have hsame := hpaths definition hmem leader hleader
      ((pathFor_of_mem hdestination hdefinition).symm.trans
        (pathFor_of_mem hdestination hleaderHeld))
    have hclassify : (plan.config.classify definition).1 = destination.group :=
      hsame.trans hgroup
    exact ⟨hclassify, hclassify ▸ hpreamble⟩

/-- When groups share a file, for an accepted configuration and any owner and extension. Two groups
have one path exactly if their filled templates name the same pieces. Two dispatch keys have one
path exactly if the same is left of them in a file name, provided that no place for the key stands
inside of other braces; so different keys that can be part of a file name as they are have different
paths. And the files of a run hold one group each, under its preamble, exactly if no two groups of
its definitions have one path. -/
theorem groups_share_iff {config : Config} {owner : Text} {extension : Option Text}
    {namer : FileNaming} (hcheck : config.check = .ok ())
    (hnamer : namer = .ofConfig config owner extension) :
    (∀ first second : Group, namer.path first = namer.path second ↔
      Path.names (namer.filled first) = Path.names (namer.filled second)) ∧
    (namer.KeyStandsFree → ∀ first second : Text,
      (namer.path (.dispatch first) = namer.path (.dispatch second) ↔
        first.fileComponent = second.fileComponent) ∧
      (first.IsFilePart → second.IsFilePart →
        (namer.path (.dispatch first) = namer.path (.dispatch second) ↔ first = second))) ∧
    ∀ (read : Reader) (job : Job) (plan : Plan), job.config = config → ofJob read job = .ok plan →
      ((∀ destination ∈ plan.grouping.destinations, plan.HoldsOneGroup destination) ↔
        ∀ first ∈ plan.definitions, ∀ second ∈ plan.definitions,
          plan.pathFor first = plan.pathFor second →
            (config.classify first).1 = (config.classify second).1) := by
  subst hnamer
  refine ⟨FileNaming.path_eq_path_iff _, fun hfree first second => ?_, ?_⟩
  · have hdispatch : Text.contains
        (FileNaming.ofConfig config owner extension).templates.dispatch Config.keyPlace = true :=
      (Config.check_eq_ok_iff.mp hcheck).dispatchFile
    have hkeys := FileNaming.path_dispatch_eq_iff hfree hdispatch first second
    refine ⟨hkeys, fun hfirst hsecond => ?_⟩
    rw [hkeys, hfirst.fileComponent_eq, hsecond.fileComponent_eq]
  · rintro read job plan rfl hplan
    have hsurveys := surveys_of_ofJob hplan
    rw [← hsurveys.config_eq]
    exact hsurveys.holdsOneGroup_iff

/-- An accepted configuration that names one file for the core and for the helpers, in two ways. -/
def oneFileTwice : Config where
  coreFunctions := .ofList ["a"]
  fileNames := { core := "all.cpp", helper := "./all.cpp" }

/-- With that configuration the core and the helpers share a file, which a run gives the preamble of
the core; and of two different keys the same can be left, but not of two plain ones. -/
theorem groups_share_iff_one_file_twice :
    let tree := FileTree.ofFile "Foo.cpp" "void Foo::a() {}\nvoid Foo::b() {}\n"
    let job : Job := { input := "Foo.cpp", config := oneFileTwice }
    let namer := FileNaming.ofConfig oneFileTwice "Foo" none
    oneFileTwice.check = .ok () ∧ namer.path .core = namer.path .helper ∧
      namer.path (.dispatch "ast::Leaf") = namer.path (.dispatch "ast_Leaf") ∧
      namer.path (.dispatch "Leaf") ≠ namer.path (.dispatch "Node") ∧
      (tree.run job).inputOutcome? = some .replaced ∧
      ∃ plan, ofJob tree.read job = .ok plan ∧
        ¬ ∀ destination ∈ plan.grouping.destinations, plan.HoldsOneGroup destination := by
  intro tree job namer
  have hcheck : oneFileTwice.check = .ok () := by decide
  obtain ⟨hpaths, hkeys, hruns⟩ := groups_share_iff hcheck (rfl : namer = _)
  have hfree : namer.KeyStandsFree := by decide +kernel
  have hplain : namer.path (.dispatch "Leaf") ≠ namer.path (.dispatch "Node") := by
    rw [Ne, (hkeys hfree "Leaf" "Node").2 (by decide) (by decide)]
    decide
  have hreplaced : (tree.run job).inputOutcome? = some .replaced := by decide +kernel
  obtain ⟨plan, hplan, -⟩ := FileTree.exists_plan_of_inputOutcome? hreplaced
  refine ⟨hcheck, (hpaths .core .helper).mpr (by decide +kernel),
    (hkeys hfree "ast::Leaf" "ast_Leaf").1.mpr (by decide +kernel), hplain, hreplaced, plan, hplan,
    fun hone => ?_⟩
  have hclash : ∀ plan ∈ (ofJob tree.read job).toOption,
      ∃ first ∈ plan.definitions, ∃ second ∈ plan.definitions,
        plan.pathFor first = plan.pathFor second ∧
          (oneFileTwice.classify first).1 ≠ (oneFileTwice.classify second).1 := by
    decide +kernel
  obtain ⟨first, hfirst, second, hsecond, hpath, hne⟩ := hclash plan (by rw [hplan]; rfl)
  exact hne ((hruns _ job plan rfl hplan).mp hone first hfirst second hsecond hpath)

end Plan

end MemberSplit
