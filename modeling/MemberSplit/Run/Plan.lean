import MemberSplit.Destination.Basic
import MemberSplit.Destination.Location
import MemberSplit.Extraction.Basic
import MemberSplit.Header
import MemberSplit.Aggregator.Gap
import MemberSplit.Run.Reading

/-!
# The plan of a run

Before anything is written, the input is surveyed and the header is read. The plan follows from
these two: which files are to be written with what text, which lines refer to them, and what would
be lost.
-/

namespace MemberSplit

/-- What a run is asked to do. -/
structure Job where
  input : Path
  /-- The header; looked for beside the input if absent. -/
  declarations : Option Path := none
  config : Config := {}
  /-- Write nothing. -/
  dryRun : Bool := false
  /-- Replace the input even if something would be lost. -/
  force : Bool := false
  deriving DecidableEq

/-- What the input holds. -/
structure Survey where
  job : Job
  source : SourceFile
  owner : Text
  extraction : Extraction
  deriving DecidableEq

/-- A header that has been read. -/
structure HeaderCheck where
  source : SourceFile
  /-- The declared members, if the header holds the body of the owner. -/
  declared : Option NameSet
  deriving DecidableEq

/-- All that a run knows before it writes. -/
structure Plan where
  survey : Survey
  header : Option HeaderCheck
  deriving DecidableEq

/-- A file that is to be written. -/
structure PlannedFile where
  destination : Destination
  path : Path
  /-- The line by which the input refers to the file. -/
  reference : Text
  deriving DecidableEq, Repr

namespace Survey

/-- The extractor for an owner. -/
def extractor (config : Config) (owner : Text) : Extractor where
  pattern := { owner, layout := config.layout }
  mode := config.scanMode

/-- Surveys the input. -/
def make (read : Reader) (job : Job) : Except Failure Survey :=
  match job.config.check with
  | .error problem => .error (.invalidConfig problem)
  | .ok _ =>
    match SourceFile.read read job.input with
    | .error failure => .error failure
    | .ok source =>
      match job.config.ownerFor job.input with
      | .error problem => .error (.invalidConfig problem)
      | .ok owner =>
        .ok { job, source, owner
              extraction := (extractor job.config owner).extract source.text }

/-- The problems of the input. -/
def diagnostics (survey : Survey) : List Diagnostic :=
  (if survey.source.lossy then [.lossyDecode survey.job.input] else []) ++
    survey.extraction.diagnostics

/-- The log of a survey. -/
def log (survey : Survey) : List Log.Line :=
  Log.line .info ["splitting `", survey.owner, "` members out of ", survey.job.input] ::
    (if survey.source.lossy then
      [Log.line .warn [survey.job.input, " is not valid UTF-8, decoded lossily"]] else []) ++
    survey.extraction.log

end Survey

namespace HeaderCheck

/-- Reads a header. -/
def make (read : Reader) (owner : Text) (path : Path) : Except Failure HeaderCheck :=
  (SourceFile.read read path).map fun source =>
    { source, declared := Header.members? source.text owner }

/-- The problems of a header and of the definitions that it declares. -/
def diagnostics (check : HeaderCheck) (definitions : List Definition) : List Diagnostic :=
  (if check.source.lossy then [.lossyDecode check.source.path] else []) ++
    match check.declared with
    | none => []
    | some names => Header.mismatches definitions names

/-- The log of reading a header. -/
def log (check : HeaderCheck) (owner : Text) : Log.Line :=
  match check.declared with
  | some names =>
    Log.line .debug [check.source.path, " declares ", Text.ofNat names.size, " member(s) of `",
      owner, "`"]
  | none =>
    Log.line .warn ["no body for `", owner, "` found in ", check.source.path]

end HeaderCheck

namespace Plan

/-- Plans a run for what has been surveyed. -/
def make (read : Reader) (survey : Survey) : Except Failure Plan :=
  let path := survey.job.declarations.or (Header.infer? read survey.job.input)
  match path with
  | none => .ok { survey, header := none }
  | some path =>
    (HeaderCheck.make read survey.owner path).map fun check => { survey, header := some check }

/-- Surveys the input and plans the run; a failure comes with what has been logged before it. -/
def ofJob (read : Reader) (job : Job) :
    Except (Failure × List Log.Line) Plan :=
  match Survey.make read job with
  | .error failure => .error (failure, [])
  | .ok survey =>
    match make read survey with
    | .error failure => .error (failure, survey.log)
    | .ok plan => .ok plan

/-- The configuration. -/
def config (plan : Plan) : Config :=
  plan.survey.job.config

/-- The input. -/
def input (plan : Plan) : Path :=
  plan.survey.job.input

/-- The definitions of the input. -/
def definitions (plan : Plan) : List Definition :=
  plan.survey.extraction.definitions

/-- The definitions with their groups. -/
def classified (plan : Plan) : List Classified :=
  plan.definitions.map plan.config.classified

/-- The input in front of its first definition. -/
def lead (plan : Plan) : Text :=
  let text := plan.survey.source.text
  text.takeBytes (plan.survey.extraction.leadLength text.byteLength)

/-- The names of the files. -/
def namer (plan : Plan) : FileNaming :=
  .ofConfig plan.config plan.survey.owner plan.input.extension?

/-- The preambles of the files. -/
def preamble (plan : Plan) : Preamble :=
  .ofConfig plan.config (plan.header.bind fun check => check.source.path.fileName?) plan.lead

/-- The definitions, distributed over files. -/
def grouping (plan : Plan) : Grouping :=
  .ofClassified plan.namer plan.preamble plan.classified

/-- The directory that the files go to. -/
def outputBase (plan : Plan) : Path :=
  Location.outputBase plan.input plan.config.outputDirectory

/-- A destination as a file to be written. -/
def plannedFile (plan : Plan) (destination : Destination) : PlannedFile where
  destination
  path := plan.outputBase.join destination.path
  reference :=
    Location.reference plan.config.referenceTemplate plan.config.outputDirectory destination.path

/-- The files to be written. -/
def files (plan : Plan) : List PlannedFile :=
  plan.grouping.destinations.map plan.plannedFile

/-- The gaps behind the definitions. -/
def gaps (plan : Plan) : List Gap :=
  Gap.list plan.survey.source.text plan.definitions

/-- The problems that are known before the files are written. -/
def diagnostics (plan : Plan) : List Diagnostic :=
  plan.survey.diagnostics ++
    (plan.header.elim [] fun check => check.diagnostics plan.definitions) ++
    plan.classified.filterMap plan.config.defaultDiagnostic? ++
    plan.grouping.repetitions.map Repetition.diagnostic

/-- The log of planning. -/
def log (plan : Plan) : List Log.Line :=
  plan.survey.log ++
    (plan.header.toList.map fun check => check.log plan.survey.owner) ++
    plan.classified.map plan.config.classificationLog ++
    plan.grouping.repetitions.map Repetition.log

end Plan

end MemberSplit
