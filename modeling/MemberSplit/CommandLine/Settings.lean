import MemberSplit.Config.Basic

/-!
# Settings of a command line

What the options of a command line ask for. A setting that is not given stays open, so that the
configuration file decides about it.
-/

namespace MemberSplit.CommandLine

/-- When the summary is coloured. -/
inductive ColorWhen where
  /-- As the surroundings suggest. -/
  | auto
  | always
  | never
  deriving DecidableEq, Repr

/-- What the options ask for. -/
structure Settings where
  declarations : Option Path := none
  configFile : Option Path := none
  owner : Option Text := none
  outputDirectory : Option Path := none
  dispatchMethod : Option Text := none
  /-- Names that stay in the core file, beside the configured ones. -/
  core : List Text := []
  /-- Variant types whose overloads are helpers, beside the configured ones. -/
  exclude : List Text := []
  /-- Names that are helpers on purpose, beside the configured ones. -/
  helper : List Text := []
  singleLine : Bool := false
  scanMode : Option ScanMode := none
  dryRun : Bool := false
  force : Bool := false
  /-- Warnings make the run fail. -/
  strict : Bool := false
  /-- The summary is written as JSON. -/
  json : Bool := false
  color : Option ColorWhen := none
  /-- How often more log lines were asked for. -/
  verbosity : Nat := 0
  quiet : Bool := false
  deriving DecidableEq

namespace Settings

/-- The configuration with the settings laid over it. -/
def layer (settings : Settings) (config : Config) : Config :=
  { config with
    owner := settings.owner.or config.owner
    outputDirectory := settings.outputDirectory.getD config.outputDirectory
    dispatchMethod := settings.dispatchMethod.getD config.dispatchMethod
    coreFunctions := config.coreFunctions.insertAll settings.core
    dispatchExclusions := config.dispatchExclusions.insertAll settings.exclude
    helperFunctions := config.helperFunctions.insertAll settings.helper
    layout := if settings.singleLine then .oneLine else config.layout
    scanMode := settings.scanMode.getD config.scanMode }

end Settings

/-- Why an option cannot have its effect. -/
inductive Refusal where
  /-- The option stood there before. -/
  | repeated
  /-- A path is empty. -/
  | emptyValue
  /-- The value is none of the words that the option knows. -/
  | unknownWord (word : Text) (known : List Text)
  deriving DecidableEq, Repr

namespace Refusal

/-- Switches something on that is still off. -/
def raise (current : Bool) : Except Refusal Bool :=
  if current then .error .repeated else .ok true

/-- Fills an open setting. -/
def fill {Value : Type} (current : Option Value) (value : Value) :
    Except Refusal (Option Value) :=
  match current with
  | some _ => .error .repeated
  | none => .ok (some value)

/-- A path, which must not be empty. -/
def path (word : Text) : Except Refusal Path :=
  if word.isEmpty then .error .emptyValue else .ok word

/-- One of several choices by its word. -/
def choice {Value : Type} (choices : List (Text × Value)) (word : Text) : Except Refusal Value :=
  match choices.lookup word with
  | some value => .ok value
  | none => .error (.unknownWord word (choices.map Prod.fst))

end Refusal

end MemberSplit.CommandLine
