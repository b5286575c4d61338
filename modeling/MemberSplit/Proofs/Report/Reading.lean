import MemberSplit.Report.Json

/-!
# Reading a report

What a program reads from the JSON value of a report, key by key. Where an object repeats a key, the
last of its members counts. Main statement: the summary is read back, with its judgement and what is
told of each diagnostic.
-/

namespace MemberSplit

namespace Json

variable {α β : Type}

/-- What a key of an object stands for. -/
def member? (key : Text) : Json → Option Json
  | .obj members => members.reverse.lookup key
  | _ => none

/-- Reads a text. -/
def text? : Json → Option Text
  | .str text => some text
  | _ => none

/-- Reads a text or null. -/
def optText? : Json → Option (Option Text)
  | .null => some none
  | .str text => some (some text)
  | _ => none

/-- Reads a truth value. -/
def truth? : Json → Option Bool
  | .bool value => some value
  | _ => none

/-- Reads a number. -/
def int? : Json → Option Int
  | .num value => some value
  | _ => none

/-- Reads a natural number. -/
def nat? : Json → Option Nat
  | .num (.ofNat value) => some value
  | _ => none

/-- Reads an array, item by item. -/
def list? (read : Json → Option α) : Json → Option (List α)
  | .arr items => items.mapM read
  | _ => none

/-- Reads what a key of an object stands for. -/
def field? (value : Json) (key : Text) (read : Json → Option α) : Option α :=
  (value.member? key).bind read

/-- An array is read if its items are. -/
theorem list?_map {read : Json → Option β} {write : α → Json} {result : α → β}
    (h : ∀ item, read (write item) = some (result item)) (items : List α) :
    list? read (.arr (items.map write)) = some (items.map result) := by
  change (items.map write).mapM read = some (items.map result)
  induction items with
  | nil => rfl
  | cons item items ih =>
      rw [List.map_cons, List.mapM_cons, h, ih]
      rfl

theorem list?_map_self {read : Json → Option α} {write : α → Json}
    (h : ∀ item, read (write item) = some item) (items : List α) :
    list? read (.arr (items.map write)) = some items := by
  simpa using list?_map h items

end Json

open Json (text? optText? truth? int? nat? list?)

/-- Reads the status of a file. -/
def FileStatus.ofJson? (value : Json) : Option FileStatus := do
  let label ← text? value
  [written, unchanged, planned, failed].find? fun status => status.label = label

/-- Reads a severity. -/
def Severity.ofJson? (value : Json) : Option Severity := do
  let label ← text? value
  [info, warning, error].find? fun severity => severity.label = label

/-- Reads a group. -/
def Group.ofJson? (value : Json) : Option Group := do
  let label ← value.field? "group" text?
  if label = "dispatch" then dispatch <$> value.field? "key" text?
  else [core, helper].find? fun group => group.label = label

/-- Reads a reason. -/
def Objection.ofJson? (value : Json) : Option Objection := do
  let label ← value.field? "reason" text?
  if label = lossyInput.label then return lossyInput
  let count ← value.field? "count" nat?
  [unterminatedBodies count, duplicateDefinitions count, writeFailures count,
    unbalancedDestinations count, orphanedCode count].find? fun reason => reason.label = label

/-- Reads what became of the input. -/
def InputOutcome.ofJson? (value : Json) : Option InputOutcome := do
  let status ← value.field? "status" text?
  let readers : List (Text × Option InputOutcome) :=
    [("rewritten", replaced), ("unchanged", unchanged), ("planned", planned),
      ("withheld", withheld <$> value.field? "reasons" (list? Objection.ofJson?)),
      ("failed", failed <$> value.field? "message" text?), ("nothing_to_split", nothingToSplit)]
  (readers.lookup status).join

/-- Reads a file. -/
def FileReport.ofJson? (value : Json) : Option FileReport :=
  mk <$> value.field? "path" text? <*> value.field? "reference" text? <*>
    value.field? "classification" Group.ofJson? <*> value.field? "functions" (list? text?) <*>
    value.field? "status" FileStatus.ofJson?

/-- Reads the counts. -/
def Counts.ofJson? (value : Json) : Option Counts :=
  let count key := value.field? key nat?
  mk <$> count "candidates" <*> count "extracted" <*> count "nested" <*> count "unterminated" <*>
    count "unrecognized" <*> count "defaulted" <*> count "duplicates" <*>
    count "comment_blocks_dropped"

namespace Diagnostic

/-- Reads a diagnostic: its kind and the facts that it is about. -/
def ofJson? (value : Json) : Option Diagnostic := do
  let kind ← value.field? "kind" text?
  let text key := value.field? key text?
  let line key := value.field? key nat?
  let readers : List (Text × Option Diagnostic) :=
    [("unterminated_body", unterminatedBody <$> text "name" <*> line "line"),
      ("unrecognized_signature_shape", unrecognizedShape <$> line "line" <*> text "text"),
      ("misclassified_default", defaulted <$> text "name" <*> line "line" <*> text "reason"),
      ("output_write_failure", writeFailure <$> text "path" <*> text "message"),
      ("duplicate_definition", duplicate <$> text "name" <*> line "line" <*> line "first_line" <*>
        text "destination"),
      ("unbalanced_destination", unbalanced <$> text "path" <*> value.field? "depth" int?),
      ("orphaned_code", orphanedCode <$> line "line" <*> text "text"),
      ("undeclared_function", undeclared <$> text "name" <*> line "line"),
      ("missing_definition", missingDefinition <$> text "name"),
      ("lossy_decode", lossyDecode <$> text "path")]
  (readers.lookup kind).join

/-- Reads what is told of a diagnostic: how much it matters, and its wording. -/
def remark? (value : Json) : Option (Severity × Text) :=
  Prod.mk <$> value.field? "severity" Severity.ofJson? <*> value.field? "message" text?

/-- The wording that is read. What the system said of a file that could not be written has the same
key as the wording, and comes later. -/
def wordingRead : Diagnostic → Text
  | writeFailure _ message => message
  | diagnostic => diagnostic.message

end Diagnostic

/-- Reads a summary. -/
def Summary.ofJson? (value : Json) : Option Summary :=
  mk <$> value.field? "input" text? <*> value.field? "owner" text? <*>
    value.field? "declarations" optText? <*> value.field? "output_root" text? <*>
    value.field? "dry_run" truth? <*> value.field? "forced" truth? <*>
    value.field? "counts" Counts.ofJson? <*>
    value.field? "destinations" (list? FileReport.ofJson?) <*>
    value.field? "aggregator" InputOutcome.ofJson? <*>
    value.field? "diagnostics" (list? Diagnostic.ofJson?)

/-- What is read from a report. -/
structure Reading where
  summary : Summary
  success : Bool
  /-- The severity and the wording of each diagnostic. -/
  remarks : List (Severity × Text)

/-- Reads a report. -/
def Reading.ofJson? (value : Json) : Option Reading :=
  mk <$> Summary.ofJson? value <*> value.field? "success" truth? <*>
    value.field? "diagnostics" (list? Diagnostic.remark?)

/-! ## What has been reported is read back -/

theorem FileStatus.ofJson?_label (status : FileStatus) :
    ofJson? (.str status.label) = some status := by
  cases status <;> rfl

theorem Group.ofJson?_toJson (group : Group) : ofJson? group.toJson = some group := by
  cases group <;> rfl

theorem Objection.ofJson?_toJson (reason : Objection) : ofJson? reason.toJson = some reason := by
  cases reason <;> rfl

theorem InputOutcome.ofJson?_toJson (outcome : InputOutcome) :
    ofJson? outcome.toJson = some outcome := by
  cases outcome with
  | withheld reasons =>
      have hreasons : (withheld reasons).toJson.field? "reasons" (list? Objection.ofJson?) =
          some reasons :=
        Json.list?_map_self Objection.ofJson?_toJson reasons
      unfold ofJson?
      rw [hreasons]
      rfl
  | _ => rfl

theorem FileReport.ofJson?_toJson (file : FileReport) : ofJson? file.toJson = some file := by
  have hgroup : file.toJson.field? "classification" Group.ofJson? = some file.group :=
    file.group.ofJson?_toJson
  have hfunctions : file.toJson.field? "functions" (list? text?) = some file.functions :=
    @Json.list?_map_self Text text? Json.str (fun _ => rfl) file.functions
  have hstatus : file.toJson.field? "status" FileStatus.ofJson? = some file.status :=
    file.status.ofJson?_label
  unfold ofJson?
  rw [hgroup, hfunctions, hstatus]
  rfl

theorem Counts.ofJson?_toJson (counts : Counts) : ofJson? counts.toJson = some counts :=
  rfl

theorem Diagnostic.ofJson?_toJson (diagnostic : Diagnostic) :
    ofJson? diagnostic.toJson = some diagnostic := by
  cases diagnostic <;> rfl

theorem Diagnostic.remark?_toJson (diagnostic : Diagnostic) :
    remark? diagnostic.toJson = some (diagnostic.severity, diagnostic.wordingRead) := by
  cases diagnostic <;> rfl

theorem Summary.ofJson?_toJson (summary : Summary) (strict : Bool) :
    ofJson? (summary.toJson strict) = some summary := by
  have hdeclarations : (summary.toJson strict).field? "declarations" optText? =
      some summary.declarations := by
    change optText? (.optStr summary.declarations) = some summary.declarations
    cases summary.declarations <;> rfl
  have hcounts : (summary.toJson strict).field? "counts" Counts.ofJson? = some summary.counts :=
    summary.counts.ofJson?_toJson
  have hfiles : (summary.toJson strict).field? "destinations" (list? FileReport.ofJson?) =
      some summary.files :=
    Json.list?_map_self FileReport.ofJson?_toJson summary.files
  have houtcome : (summary.toJson strict).field? "aggregator" InputOutcome.ofJson? =
      some summary.outcome :=
    summary.outcome.ofJson?_toJson
  have hdiagnostics : (summary.toJson strict).field? "diagnostics" (list? Diagnostic.ofJson?) =
      some summary.diagnostics :=
    Json.list?_map_self Diagnostic.ofJson?_toJson summary.diagnostics
  unfold ofJson?
  rw [hdeclarations, hcounts, hfiles, houtcome, hdiagnostics]
  rfl

/-- A report is read back, with the wordings that stand last. -/
theorem Reading.ofJson?_toJson (summary : Summary) (strict : Bool) :
    ofJson? (summary.toJson strict) = some
      { summary, success := summary.isSuccess strict
        remarks := summary.diagnostics.map fun diagnostic =>
          (diagnostic.severity, diagnostic.wordingRead) } := by
  have hsummary := summary.ofJson?_toJson strict
  have hremarks : (summary.toJson strict).field? "diagnostics" (list? Diagnostic.remark?) =
      some (summary.diagnostics.map fun diagnostic =>
        (diagnostic.severity, diagnostic.wordingRead)) :=
    Json.list?_map Diagnostic.remark?_toJson summary.diagnostics
  unfold ofJson?
  rw [hsummary, hremarks]
  rfl

end MemberSplit
