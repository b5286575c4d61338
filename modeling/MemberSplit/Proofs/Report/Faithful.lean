import MemberSplit.Proofs.Json.Reading
import MemberSplit.Proofs.Report.Reading

/-!
# What a report tells

Whether a program that reads a report learns all that the summary holds. Main statement: it learns
the summary and the judgement in any case, and reads the wording of each diagnostic but that of a
write failure, whose object is the only one that repeats a key.
-/

namespace MemberSplit

namespace Json

variable {p q : List (Text × Json) → Prop}

/-- The object with these members is the value or stands in it. -/
inductive Holds (members : List (Text × Json)) : Json → Prop
  | self : Holds members (.obj members)
  | item {item : Json} {items : List Json} (hmem : item ∈ items) (h : Holds members item) :
      Holds members (.arr items)
  | member {member : Text × Json} {others : List (Text × Json)} (hmem : member ∈ others)
      (h : Holds members member.2) : Holds members (.obj others)

/-- Each object in the value has the property. -/
def EachObject (p : List (Text × Json) → Prop) (value : Json) : Prop :=
  ∀ members, Holds members value → p members

@[simp] theorem eachObject_null : EachObject p .null := nofun

@[simp] theorem eachObject_bool (value : Bool) : EachObject p (.bool value) := nofun

@[simp] theorem eachObject_num (value : Int) : EachObject p (.num value) := nofun

@[simp] theorem eachObject_str (text : Text) : EachObject p (.str text) := nofun

@[simp] theorem eachObject_optStr (text : Option Text) : EachObject p (.optStr text) := by
  cases text with
  | none => exact eachObject_null
  | some text => exact eachObject_str text

@[simp] theorem eachObject_arr (items : List Json) :
    EachObject p (.arr items) ↔ ∀ item ∈ items, EachObject p item := by
  constructor
  · exact fun h item hmem members hholds => h members (.item hmem hholds)
  · rintro h members (_ | ⟨hmem, hholds⟩)
    exact h _ hmem members hholds

@[simp] theorem eachObject_obj (members : List (Text × Json)) :
    EachObject p (.obj members) ↔ p members ∧ ∀ member ∈ members, EachObject p member.2 := by
  constructor
  · exact fun h => ⟨h members .self, fun member hmem others hholds =>
      h others (.member hmem hholds)⟩
  · rintro ⟨hself, hmembers⟩ others (_ | _ | ⟨hmem, hholds⟩)
    · exact hself
    · exact hmembers _ hmem others hholds

theorem EachObject.mono {value : Json} (h : EachObject p value)
    (hpq : ∀ members, p members → q members) : EachObject q value :=
  fun members hholds => hpq members (h members hholds)

/-- No key is repeated. -/
def HasDistinctKeys (members : List (Text × Json)) : Prop :=
  (members.map Prod.fst).Nodup

end Json

open Json (EachObject HasDistinctKeys)

theorem Group.eachObject_toJson (group : Group) : EachObject HasDistinctKeys group.toJson := by
  cases group <;> simp [toJson, HasDistinctKeys]

theorem Objection.eachObject_toJson (reason : Objection) :
    EachObject HasDistinctKeys reason.toJson := by
  cases reason <;> simp [toJson, HasDistinctKeys, Json.nat, count?]

theorem InputOutcome.eachObject_toJson (outcome : InputOutcome) :
    EachObject HasDistinctKeys outcome.toJson := by
  cases outcome <;> simp [toJson, HasDistinctKeys, Objection.eachObject_toJson]

theorem FileReport.eachObject_toJson (file : FileReport) :
    EachObject HasDistinctKeys file.toJson := by
  simp [toJson, HasDistinctKeys, Json.strs, Group.eachObject_toJson]

theorem Counts.eachObject_toJson (counts : Counts) :
    EachObject HasDistinctKeys counts.toJson := by
  simp [toJson, HasDistinctKeys, Json.nat]

namespace Diagnostic

/-- A diagnostic is reported as one object. -/
theorem eachObject_toJson_iff {p : List (Text × Json) → Prop} (diagnostic : Diagnostic) :
    EachObject p diagnostic.toJson ↔ ∀ members, diagnostic.toJson = .obj members → p members := by
  cases diagnostic <;> simp [toJson, facts, Json.nat]

/-- Only the report of a write failure repeats a key. -/
theorem hasDistinctKeys_iff {diagnostic : Diagnostic} {members : List (Text × Json)}
    (h : diagnostic.toJson = .obj members) :
    HasDistinctKeys members ↔ ∀ path message, diagnostic ≠ .writeFailure path message := by
  obtain rfl := Json.obj.inj h
  cases diagnostic <;> simp [facts, HasDistinctKeys]

/-- The wording is read, unless it is that of a write failure: the system's words are shorter. -/
theorem wordingRead_eq_message_iff (diagnostic : Diagnostic) :
    diagnostic.wordingRead = diagnostic.message ↔
      ∀ path message, diagnostic ≠ .writeFailure path message := by
  cases diagnostic with
  | writeFailure path message =>
      have hlength : message.length < (writeFailure path message).message.length := by
        simp [Diagnostic.message, Text.concat]
        omega
      refine iff_of_false (fun heq => ?_) fun h => h path message rfl
      rw [← heq] at hlength
      exact Nat.lt_irrefl _ hlength
  | _ => simp [wordingRead]

end Diagnostic

namespace Summary

/-- A write failure is reported with these members. -/
def ReportsFailure (summary : Summary) (members : List (Text × Json)) : Prop :=
  ∃ path message, .writeFailure path message ∈ summary.diagnostics ∧
    (Diagnostic.writeFailure path message).toJson = .obj members

/-- The object with these members repeats a key if it reports a write failure, and else does not. -/
def RepeatsOnlyForFailure (summary : Summary) (members : List (Text × Json)) : Prop :=
  ¬ HasDistinctKeys members ↔ summary.ReportsFailure members

/-- A program that reads the text learns what the summary holds, and no member is lost. -/
structure IsTold (summary : Summary) (strict : Bool) (text : Text) : Prop where
  reading : (Json.ofText? text).bind Reading.ofJson? = some
    { summary, success := summary.isSuccess strict
      remarks := summary.diagnostics.map fun diagnostic =>
        (diagnostic.severity, diagnostic.message) }
  distinct : ∀ value ∈ Json.ofText? text, EachObject HasDistinctKeys value

variable {summary : Summary}

theorem repeatsOnlyForFailure_of_hasDistinctKeys {members : List (Text × Json)}
    (h : HasDistinctKeys members) : summary.RepeatsOnlyForFailure members := by
  refine iff_of_false (not_not_intro h) ?_
  rintro ⟨path, message, -, hreport⟩
  exact (Diagnostic.hasDistinctKeys_iff hreport).mp h path message rfl

theorem eachObject_diagnostic {diagnostic : Diagnostic} (hmem : diagnostic ∈ summary.diagnostics) :
    EachObject summary.RepeatsOnlyForFailure diagnostic.toJson := by
  refine diagnostic.eachObject_toJson_iff.mpr fun members hreport => ?_
  by_cases hdistinct : HasDistinctKeys members
  · exact repeatsOnlyForFailure_of_hasDistinctKeys hdistinct
  · obtain ⟨path, message, rfl⟩ : ∃ path message, diagnostic = .writeFailure path message := by
      simpa [Diagnostic.hasDistinctKeys_iff hreport] using hdistinct
    exact iff_of_true hdistinct ⟨path, message, hmem, hreport⟩

/-- The report repeats a key where it tells of a write failure, and nowhere else. -/
theorem eachObject_toJson (summary : Summary) (strict : Bool) :
    EachObject summary.RepeatsOnlyForFailure (summary.toJson strict) := by
  have hplain : ∀ {value}, EachObject HasDistinctKeys value →
      EachObject summary.RepeatsOnlyForFailure value :=
    fun h => h.mono fun _ => repeatsOnlyForFailure_of_hasDistinctKeys
  have hcounts := hplain summary.counts.eachObject_toJson
  have hfiles := fun file : FileReport => hplain file.eachObject_toJson
  have houtcome := hplain summary.outcome.eachObject_toJson
  refine (Json.eachObject_obj _).mpr ⟨?_, ?_⟩
  · exact repeatsOnlyForFailure_of_hasDistinctKeys (by simp [HasDistinctKeys])
  · simp +contextual [hcounts, hfiles, houtcome, eachObject_diagnostic]

theorem forall_ne_writeFailure_of_hasDistinctKeys {strict : Bool}
    (h : EachObject HasDistinctKeys (summary.toJson strict)) {diagnostic : Diagnostic}
    (hmem : diagnostic ∈ summary.diagnostics) (path message : Text) :
    diagnostic ≠ .writeFailure path message := by
  have hlist := ((Json.eachObject_obj _).mp h).2
    ("diagnostics", .arr (summary.diagnostics.map Diagnostic.toJson)) (by simp)
  have hobject := (Json.eachObject_arr _).mp hlist _ (List.mem_map_of_mem hmem)
  exact (Diagnostic.hasDistinctKeys_iff rfl).mp
    (diagnostic.eachObject_toJson_iff.mp hobject _ rfl) path message

theorem hasDistinctKeys_of_forall {members : List (Text × Json)}
    (h : summary.RepeatsOnlyForFailure members)
    (hnone : ∀ path message, .writeFailure path message ∉ summary.diagnostics) :
    HasDistinctKeys members := by
  by_contra hrepeats
  obtain ⟨path, message, hmem, -⟩ := h.mp hrepeats
  exact hnone path message hmem

/-- The report tells all if no file failed to be written. In any case it is JSON, the summary and
the judgement are read back, and only the report of a write failure repeats a key. -/
theorem isTold_iff (summary : Summary) (strict : Bool) :
    let text := (summary.toJson strict).pretty ++ ['\n']
    (summary.IsTold strict text ↔
      ∀ path message, .writeFailure path message ∉ summary.diagnostics) ∧
    (Json.ofText? text).bind Reading.ofJson? = some
      { summary, success := summary.isSuccess strict
        remarks := summary.diagnostics.map fun diagnostic =>
          (diagnostic.severity, diagnostic.wordingRead) } ∧
    (∀ diagnostic ∈ summary.diagnostics, diagnostic.wordingRead = diagnostic.message ↔
      ∀ path message, diagnostic ≠ .writeFailure path message) ∧
    ∀ value ∈ Json.ofText? text, EachObject summary.RepeatsOnlyForFailure value := by
  intro text
  have hspace : ∀ c ∈ ['\n'], Json.isSpace c = true := List.forall_mem_singleton.mpr rfl
  have htext : Json.ofText? text = some (summary.toJson strict) :=
    Json.ofText?_pretty (summary.toJson strict) hspace
  have hreading : (Json.ofText? text).bind Reading.ofJson? = _ :=
    (congrArg (Option.bind · Reading.ofJson?) htext).trans (Reading.ofJson?_toJson summary strict)
  have hobjects := summary.eachObject_toJson strict
  refine ⟨⟨?_, ?_⟩, hreading, fun diagnostic _ => diagnostic.wordingRead_eq_message_iff, ?_⟩
  · intro htold path message hmem
    exact forall_ne_writeFailure_of_hasDistinctKeys (htold.distinct _ htext) hmem path message rfl
  · intro hnone
    constructor
    case reading =>
      have hwordings : ∀ diagnostic ∈ summary.diagnostics,
          diagnostic.wordingRead = diagnostic.message := by
        intro diagnostic hmem
        refine diagnostic.wordingRead_eq_message_iff.mpr ?_
        rintro path message rfl
        exact hnone path message hmem
      rw [hreading, List.map_congr_left fun diagnostic hmem => by rw [hwordings diagnostic hmem]]
    case distinct =>
      rw [htext]
      rintro value ⟨⟩
      exact hobjects.mono fun members h => hasDistinctKeys_of_forall h hnone
  · rw [htext]
    rintro value ⟨⟩
    exact hobjects

theorem isTold_iff_denied :
    let summary (diagnostics : List Diagnostic) : Summary :=
      { input := "Foo.cpp", owner := "Foo", declarations := none, outputBase := "generators"
        dryRun := false, forced := false, counts := {}, files := []
        outcome := .withheld [.writeFailures 1], diagnostics }
    let text (diagnostics : List Diagnostic) : Text :=
      ((summary diagnostics).toJson false).pretty ++ ['\n']
    (summary []).IsTold false (text []) ∧
      ¬ (summary [.writeFailure "a.cpp" "denied"]).IsTold false
        (text [.writeFailure "a.cpp" "denied"]) := by
  intro summary text
  refine ⟨((summary []).isTold_iff false).1.mpr fun _ _ => List.not_mem_nil, fun htold => ?_⟩
  exact ((summary _).isTold_iff false).1.mp htold "a.cpp" "denied" (List.mem_singleton_self _)

end Summary

end MemberSplit
