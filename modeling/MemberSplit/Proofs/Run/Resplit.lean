import MemberSplit.Proofs.Extraction.Lead
import MemberSplit.Proofs.Run.Conservation
import MemberSplit.Proofs.Run.Frame
import MemberSplit.Proofs.Run.Replan

/-!
# Splitting an input that has been replaced

What a replaced input holds are the banner, what stood in front of the first definition, and the
references. Nothing is left to split in it, and a second run changes nothing; only that a reference
can hold the brace that a body in front of the first definition lacks.
-/

namespace MemberSplit

namespace Plan

variable {read : Reader} {job : Job} {plan : Plan}

/-- The lines that refer to the files close a body that never closes in the input. -/
def Recloses (plan : Plan) : Prop :=
  ∃ behind, plan.survey.source.text = plan.lead ++ behind ∧
    plan.survey.extraction.ClosedBy plan.config.scanMode behind
      (Aggregator.closeLines plan.aggregator.references)

theorem not_mem_references {c : Char} (hc : c ≠ '\n')
    (h : ∀ file ∈ plan.files, c ∉ file.reference) :
    c ∉ Aggregator.closeLines plan.aggregator.references := by
  apply Aggregator.not_mem_closeLines hc
  intro line hline
  obtain ⟨file, hfile, rfl⟩ := List.mem_map.mp hline
  exact h file hfile

theorem not_recloses_of_unterminated (h : plan.survey.extraction.unterminated = 0) :
    ¬plan.Recloses := by
  rintro ⟨behind, -, hclosed⟩
  exact Extraction.not_closedBy_of_unterminated h hclosed

theorem not_recloses_of_references (hsurveys : Surveys read job plan)
    (h : ∀ file ∈ plan.files, '}' ∉ file.reference) : ¬plan.Recloses := by
  rintro ⟨behind, -, hclosed⟩
  rw [hsurveys.extraction_eq, hsurveys.scanMode_eq] at hclosed
  exact Extractor.not_closedBy_of_not_mem _ (not_mem_references (by decide) h) hclosed

/-- Nothing is extracted from an aggregator, unless it closes a body of its input. -/
theorem definitions_aggregator_eq_nil_iff (h : Surveys read job plan)
    (hne : plan.definitions ≠ [])
    (hbanner : ∀ line ∈ job.config.banner, '\n' ∉ line ∧ "//".toList <+: line)
    (hreferences : ∀ file ∈ plan.files, '{' ∉ file.reference) :
    ((Survey.extractor job.config plan.survey.owner).extract plan.aggregator.text).definitions =
      [] ↔ ¬plan.Recloses := by
  have hlaid := laidOut h
  obtain ⟨hsource, hline⟩ := source_eq_lead_append_spell hlaid hne
  generalize Definition.spell plan.definitions
    (Definition.gapTexts plan.survey.source.text plan.definitions) = behind at hsource
  obtain ⟨first, rest, hdefinitions⟩ := List.exists_cons_of_ne_nil hne
  have hstart := start_eq_byteLength_lead hlaid hdefinitions
  have hextraction := h.extraction_eq
  rw [hsource] at hextraction
  rw [definitions, hextraction] at hdefinitions
  have hremarks : ∀ line ∈ job.config.banner, Lexical.IsLeadLine line := by
    intro line hmem
    obtain ⟨hsingle, hmark⟩ := hbanner line hmem
    exact Lexical.isLeadLine_of_comment hsingle hmark
  obtain ⟨hbarren, hopening⟩ := Signature.Pattern.barren_closeLines h.isProper hremarks
  have hbraces := not_mem_references (by decide) hreferences
  have hcut := Extractor.definitions_eq_nil_iff_of_cut hdefinitions hstart hbarren hopening hbraces
  have htext : plan.aggregator.text = Aggregator.closeLines job.config.banner ++
      (plan.lead ++ Aggregator.closeLines plan.aggregator.references) := by
    rw [Aggregator.text_eq hline, List.append_assoc]
    simp only [aggregator, h.config_eq]
  rw [htext, hcut, ← hextraction, ← h.scanMode_eq]
  apply not_congr
  constructor
  · exact fun hclosed => ⟨behind, hsource, hclosed⟩
  · rintro ⟨behind', hsource', hclosed⟩
    rwa [List.append_cancel_left (hsource.symm.trans hsource')]

end Plan

namespace FileTree

variable {tree : FileTree} {job : Job} {plan : Plan}

theorem definitions_ne_nil_of_replaced (hplan : Plan.ofJob tree.read job = .ok plan)
    (h : (tree.run job).inputOutcome? = some .replaced) : plan.definitions ≠ [] := by
  intro hnone
  rw [run_of_plan hplan, inputOutcome?_carryOut, Plan.decide_eq_nothing hnone] at h
  cases h

/-- After a run that replaced its input, let the banner be made of comments and no reference hold an
opening brace. Then the job can be done again, and this extracts nothing and changes nothing,
exactly if the references close no body that never closes in the input. They close none if there
was no such body, as without force, or if they hold no closing brace. -/
theorem nothingToSplit_iff_of_replaced (hplan : Plan.ofJob tree.read job = .ok plan)
    (h : (tree.run job).inputOutcome? = some .replaced)
    (hbanner : ∀ line ∈ job.config.banner, '\n' ∉ line ∧ "//".toList <+: line)
    (hreferences : ∀ file ∈ plan.files, '{' ∉ file.reference) :
    (∃ again, ((tree.run job).tree.run job).outcome = .ok again ∧
      (again.outcome = .nothingToSplit ∧ again.counts.extracted = 0 ∧
          ((tree.run job).tree.run job).tree = (tree.run job).tree ↔ ¬plan.Recloses)) ∧
      (plan.survey.extraction.unterminated = 0 → ¬plan.Recloses) ∧
      (job.force = false → ¬plan.Recloses) ∧
      ((∀ file ∈ plan.files, '}' ∉ file.reference) → ¬plan.Recloses) := by
  have hsurveys := Plan.surveys_of_ofJob hplan
  refine ⟨?_, Plan.not_recloses_of_unterminated, ?_, Plan.not_recloses_of_references hsurveys⟩
  · obtain ⟨writings, hwrote⟩ := tree.exists_wrote_run job
    have hreadable : ∀ path bytes, tree.read path = .ok bytes →
        ∃ bytes', (tree.run job).tree.read path = .ok bytes' := fun path bytes hread =>
      ⟨_, hwrote.read_eq hread⟩
    -- The second plan is made from the aggregator, with the same owner and settings.
    obtain ⟨second, hsecond⟩ := Plan.exists_ofJob hplan hreadable
    have hinput := read_input_of_outcome hplan h (.inl rfl)
    have hdefinitions : second.definitions = [] ↔ ¬plan.Recloses := by
      rw [Plan.definitions, Plan.extraction_eq_of_read hplan hsecond hinput]
      exact Plan.definitions_aggregator_eq_nil_iff hsurveys
        (definitions_ne_nil_of_replaced hplan h) hbanner hreferences
    rw [run_of_plan hsecond]
    refine ⟨_, rfl, ?_⟩
    rw [← hdefinitions]
    constructor
    · rintro ⟨-, hnone, -⟩
      exact List.length_eq_zero_iff.mp hnone
    · intro hnone
      refine ⟨?_, List.length_eq_zero_iff.mpr hnone, tree_carryOut_eq_self (.inr hnone)⟩
      rw [Plan.summary, Plan.decide_eq_nothing hnone]
      rfl
  · intro hforce
    have hgate := (reasons_eq_nil_of_run hplan h hforce (.inl rfl)).2
    exact Plan.not_recloses_of_unterminated (Gate.reasons_eq_nil_iff.mp hgate).1

/-- A body that never closes stays open behind its banner, and the second run tells just that. -/
theorem nothingToSplit_iff_of_replaced_open_body :
    let tree := ofFile "Foo.cpp" "void Foo::a() \x7b\nvoid Foo::b() \x7b\x7d\n"
    let job : Job := { input := "Foo.cpp", config := { banner := ["// split"] }, force := true }
    (tree.run job).inputOutcome? = some .replaced ∧
      ∃ plan again, Plan.ofJob tree.read job = .ok plan ∧
        plan.survey.extraction.unterminated = 1 ∧
        ((tree.run job).tree.run job).outcome = .ok again ∧
        again.outcome = .nothingToSplit ∧
        ((tree.run job).tree.run job).tree = (tree.run job).tree := by
  intro tree job
  have h : (tree.run job).inputOutcome? = some .replaced := by decide +kernel
  obtain ⟨plan, hplan, -⟩ := exists_plan_of_inputOutcome? h
  have hfacts : ∀ plan ∈ (Plan.ofJob tree.read job).toOption,
      plan.survey.extraction.unterminated = 1 ∧
        ∀ file ∈ plan.files, '{' ∉ file.reference ∧ '}' ∉ file.reference := by
    decide +kernel
  obtain ⟨hopen, hbraces⟩ := hfacts plan (by rw [hplan]; rfl)
  obtain ⟨⟨again, hagain, hiff⟩, -, -, hnone⟩ := nothingToSplit_iff_of_replaced hplan h
    (by decide) fun file hfile => (hbraces file hfile).1
  obtain ⟨houtcome, -, htree⟩ := hiff.mpr (hnone fun file hfile => (hbraces file hfile).2)
  exact ⟨h, plan, again, hplan, hopen, hagain, houtcome, htree⟩

/-- A reference that holds a closing brace closes a body in front of the first definition, and the
second run splits it off. -/
theorem exists_extracted_by_second_run :
    let tree := ofFile "Foo.cpp" "void Foo::a() \x7b\nvoid Foo::b() \x7b\x7d\n"
    let job : Job :=
      { input := "Foo.cpp"
        config := { referenceTemplate := "#include \"{path}\" // \x7d" }
        force := true }
    (tree.run job).inputOutcome? = some .replaced ∧ job.config.banner = [] ∧
      (∃ plan, Plan.ofJob tree.read job = .ok plan ∧
        ∀ file ∈ plan.files, '{' ∉ file.reference) ∧
      ((tree.run job).tree.run job).inputOutcome? = some .replaced ∧
      (tree.run job).tree.read job.input ≠
        ((tree.run job).tree.run job).tree.read job.input := by
  intro tree job
  have h : (tree.run job).inputOutcome? = some .replaced := by decide +kernel
  obtain ⟨plan, hplan, -⟩ := exists_plan_of_inputOutcome? h
  have hbraces : ∀ plan ∈ (Plan.ofJob tree.read job).toOption,
      ∀ file ∈ plan.files, '{' ∉ file.reference := by
    decide +kernel
  exact ⟨h, rfl, ⟨plan, hplan, hbraces plan (by rw [hplan]; rfl)⟩, by decide +kernel,
    by decide +kernel⟩

end FileTree

end MemberSplit
