import MemberSplit.Proofs.Config.Check
import MemberSplit.Proofs.Run.Steps
import MemberSplit.Proofs.Signature.Mention
import MemberSplit.Proofs.Text.Utf8

/-!
# Planning again from other files

A plan is made from the input and a header, and from nothing else. So it is made again as long as
these two hold what they held, and some plan is made as long as they can be read.
-/

namespace MemberSplit.Plan

variable {read later : Reader} {job : Job} {plan plan' : Plan}

theorem make_survey_congr (h : later job.input = read job.input) :
    Survey.make later job = Survey.make read job := by
  unfold Survey.make SourceFile.read
  rw [h]

theorem make_congr {survey : Survey} (hmake : make read survey = .ok plan)
    (hinfer : survey.job.declarations = none →
      Header.infer? later survey.job.input = Header.infer? read survey.job.input)
    (hheader : ∀ check ∈ plan.header, later check.source.path = read check.source.path) :
    make later survey = .ok plan := by
  have hpath : survey.job.declarations.or (Header.infer? later survey.job.input) =
      survey.job.declarations.or (Header.infer? read survey.job.input) := by
    cases hdeclarations : survey.job.declarations with
    | some path => rfl
    | none => rw [hinfer hdeclarations]
  unfold make at hmake ⊢
  rw [hpath]
  cases hchosen : survey.job.declarations.or (Header.infer? read survey.job.input) with
  | none =>
      rw [hchosen] at hmake
      exact hmake
  | some path =>
      rw [hchosen] at hmake
      simp only [HeaderCheck.make, SourceFile.read] at hmake ⊢
      cases hread : read path with
      | error error => simp [hread, Except.map] at hmake
      | ok bytes =>
          rw [hread] at hmake
          obtain rfl := Except.ok.inj hmake
          have hsame : later path = read path := hheader _ rfl
          rw [hsame, hread]
          rfl

/-- A plan is made from the input and the header only. -/
theorem ofJob_congr (hplan : ofJob read job = .ok plan)
    (hinput : later job.input = read job.input)
    (hinfer : job.declarations = none →
      Header.infer? later job.input = Header.infer? read job.input)
    (hheader : ∀ check ∈ plan.header, later check.source.path = read check.source.path) :
    ofJob later job = .ok plan := by
  have hjob := (surveys_of_ofJob hplan).job_eq
  unfold ofJob at hplan ⊢
  rw [make_survey_congr hinput]
  cases hsurvey : Survey.make read job with
  | error failure => simp [hsurvey] at hplan
  | ok survey =>
      simp only [hsurvey] at hplan ⊢
      cases hmake : make read survey with
      | error failure => simp [hmake] at hplan
      | ok made =>
          rw [hmake] at hplan
          obtain rfl := Except.ok.inj hplan
          rw [survey_eq_of_make hmake] at hjob
          rw [make_congr hmake (hjob ▸ hinfer) hheader]

theorem exists_read_of_declarations {path : Path} (hplan : ofJob read job = .ok plan)
    (hpath : job.declarations = some path) : ∃ bytes, read path = .ok bytes := by
  have hjob := (surveys_of_ofJob hplan).job_eq
  unfold ofJob at hplan
  split at hplan
  next => cases hplan
  next survey hsurvey =>
    split at hplan
    next => cases hplan
    next made hmade =>
      obtain rfl := Except.ok.inj hplan
      rw [survey_eq_of_make hmade] at hjob
      cases hread : read path with
      | ok bytes => exact ⟨bytes, rfl⟩
      | error error =>
          simp [make, hjob, hpath, HeaderCheck.make, SourceFile.read, hread, Except.map] at hmade

/-- A header that is found beside the input can be read. -/
theorem exists_make {survey : Survey}
    (hgiven : ∀ path, survey.job.declarations = some path → ∃ bytes, read path = .ok bytes) :
    ∃ plan, make read survey = .ok plan := by
  unfold make
  cases hpath : survey.job.declarations.or (Header.infer? read survey.job.input) with
  | none => exact ⟨_, rfl⟩
  | some path =>
      obtain ⟨bytes, hbytes⟩ : ∃ bytes, read path = .ok bytes := by
        rcases Option.or_eq_some_iff.mp hpath with hdeclarations | ⟨-, hinfer⟩
        · exact hgiven path hdeclarations
        · have hfile := List.find?_some hinfer
          rw [Reader.hasFile] at hfile
          cases hread : read path with
          | ok bytes => exact ⟨bytes, rfl⟩
          | error error =>
              rw [hread] at hfile
              cases hfile
      simp only [HeaderCheck.make, SourceFile.read, hbytes]
      exact ⟨_, rfl⟩

/-- If whatever could be read can still be read, a job that was planned can be planned again. -/
theorem exists_ofJob (hplan : ofJob read job = .ok plan)
    (hread : ∀ path bytes, read path = .ok bytes → ∃ bytes', later path = .ok bytes') :
    ∃ plan', ofJob later job = .ok plan' := by
  have hsurveys := surveys_of_ofJob hplan
  obtain ⟨bytes, hbytes, -⟩ := SourceFile.read_eq_ok hsurveys.source_eq
  obtain ⟨bytes', hbytes'⟩ := hread job.input bytes hbytes
  obtain ⟨survey, hsurvey, hjob⟩ : ∃ survey, Survey.make later job = .ok survey ∧
      survey.job = job := by
    simp only [Survey.make, hsurveys.check_eq, SourceFile.read, hbytes', hsurveys.owner_eq]
    exact ⟨_, rfl, rfl⟩
  obtain ⟨plan', hmade⟩ : ∃ plan', make later survey = .ok plan' := by
    apply exists_make
    intro path hpath
    rw [hjob] at hpath
    obtain ⟨old, hold⟩ := exists_read_of_declarations hplan hpath
    exact hread path old hold
  refine ⟨plan', ?_⟩
  rw [ofJob, hsurvey]
  simp only [hmade]

/-- What is extracted depends on the text of the input only. -/
theorem extraction_eq_of_read {text : Text} (hplan : ofJob read job = .ok plan)
    (hplan' : ofJob later job = .ok plan') (hinput : later job.input = .ok (Utf8.encode text)) :
    plan'.survey.extraction = (Survey.extractor job.config plan.survey.owner).extract text := by
  have hsurveys' := surveys_of_ofJob hplan'
  obtain ⟨bytes, hbytes, htext, -⟩ := SourceFile.read_eq_ok hsurveys'.source_eq
  obtain rfl := Except.ok.inj (hinput.symm.trans hbytes)
  rw [Utf8.decodeLossy_encode] at htext
  have howner : plan'.survey.owner = plan.survey.owner :=
    Except.ok.inj (hsurveys'.owner_eq.symm.trans (surveys_of_ofJob hplan).owner_eq)
  rw [hsurveys'.extraction_eq, htext, howner]

/-- An owner that a run settles on is a name. -/
theorem Surveys.isProper (h : Surveys read job plan) :
    (Survey.extractor job.config plan.survey.owner).pattern.IsProper := by
  have howner := h.owner_eq
  unfold Config.ownerFor at howner
  split at howner
  next owner hgiven =>
    obtain rfl := Except.ok.inj howner
    apply Signature.Pattern.isProper_of_isQualifiedName
    exact (Config.check_eq_ok_iff.mp h.check_eq).owner _ hgiven
  next =>
    simp only at howner
    split at howner
    next hname =>
      rw [← Except.ok.inj howner]
      exact Signature.Pattern.isProper_of_isIdentifier hname
    next => cases howner

theorem Surveys.scanMode_eq (h : Surveys read job plan) :
    plan.config.scanMode = (Survey.extractor job.config plan.survey.owner).mode :=
  congrArg Config.scanMode h.config_eq

end MemberSplit.Plan
