import MemberSplit.Config.Validation
import MemberSplit.Toml.Document

/-!
# Reading a configuration

A configuration is read from the entries of a TOML document. Each setting has one key and one shape
of value; an unknown key or another shape makes the whole document useless.
-/

namespace MemberSplit.Config

open Toml (Value)

/-- A text. -/
def asText? : Value → Option Text
  | .text text => some text
  | _ => none

/-- A truth value. -/
def asTruth? : Value → Option Bool
  | .truth value => some value
  | _ => none

/-- A list of texts. -/
def asTexts? : Value → Option (List Text)
  | .list items => items.mapM asText?
  | _ => none

/-- A set of names. -/
def asNames? (value : Value) : Option NameSet :=
  (asTexts? value).map NameSet.ofList

/-- The word for a choice: a text, or the key of a table with nothing in it. -/
def asWord? : Value → Option Text
  | .text text => some text
  | .table [(word, .table [])] | .table [(word, .list [])] => some word
  | _ => none

/-- A scan mode. -/
def asScanMode? (value : Value) : Option ScanMode :=
  (asWord? value).bind fun word =>
    if word = "literal" then some .literal
    else if word = "lexical" then some .lexical
    else none

/-- A way to compare names. -/
def asNameMatch? (value : Value) : Option NameMatch :=
  (asWord? value).bind fun word =>
    if word = "exact" then some .exact
    else if word = "substring" then some .substring
    else none

/-- Reads a group of settings from a table, or from a list of values in the order of `keys`. -/
def asGroup? {Settings : Type} (keys : List Text) (start : Settings)
    (set? : Settings → Text × Value → Option Settings) : Value → Option Settings
  | .table entries => entries.foldlM set? start
  | .list items => (keys.zip items).foldlM set? start
  | _ => none

/-- Sets the preamble lines of one group. -/
def setPreamble? (preambles : Preambles) (entry : Text × Value) : Option Preambles :=
  (asTexts? entry.2).bind fun lines =>
    if entry.1 = "core" then some { preambles with core := lines }
    else if entry.1 = "dispatch" then some { preambles with dispatch := lines }
    else if entry.1 = "helper" then some { preambles with helper := lines }
    else none

/-- Sets the file name template of one group. -/
def setFileName? (names : FileNames) (entry : Text × Value) : Option FileNames :=
  (asText? entry.2).bind fun template =>
    if entry.1 = "core_file" then some { names with core := template }
    else if entry.1 = "dispatch_file" then some { names with dispatch := template }
    else if entry.1 = "helper_file" then some { names with helper := template }
    else none

/-- The settings by their keys. -/
def setters : List (Text × (Config → Value → Option Config)) :=
  [("owner_type", fun config value =>
      (asText? value).map fun owner => { config with owner := some owner }),
    ("output_directory", fun config value =>
      (asText? value).map fun path => { config with outputDirectory := path }),
    ("core_functions", fun config value =>
      (asNames? value).map fun names => { config with coreFunctions := names }),
    ("allowlist_match", fun config value =>
      (asNameMatch? value).map fun mode => { config with coreMatch := mode }),
    ("dispatch_method", fun config value =>
      (asText? value).map fun method => { config with dispatchMethod := method }),
    ("dispatch_exclusions", fun config value =>
      (asNames? value).map fun names => { config with dispatchExclusions := names }),
    ("helper_functions", fun config value =>
      (asNames? value).map fun names => { config with helperFunctions := names }),
    ("multiline_signatures", fun config value =>
      (asTruth? value).map fun wraps =>
        { config with layout := if wraps then .wrapped else .oneLine }),
    ("scan_mode", fun config value =>
      (asScanMode? value).map fun mode => { config with scanMode := mode }),
    ("preamble", fun config value =>
      (asGroup? ["core", "dispatch", "helper"] {} setPreamble? value).map fun preambles =>
        { config with preambles }),
    ("naming", fun config value =>
      (asGroup? ["core_file", "dispatch_file", "helper_file"] {} setFileName? value).map
        fun fileNames => { config with fileNames }),
    ("reference_template", fun config value =>
      (asText? value).map fun template => { config with referenceTemplate := template }),
    ("aggregator_banner", fun config value =>
      (asTexts? value).map fun banner => { config with banner }),
    ("include_declarations_header", fun config value =>
      (asTruth? value).map fun includes => { config with includesHeader := includes }),
    ("core_keeps_prefix_includes", fun config value =>
      (asTruth? value).map fun keeps => { config with coreKeepsIncludes := keeps })]

/-- Sets one setting. -/
def set? (config : Config) (entry : Text × Value) : Option Config :=
  (setters.lookup entry.1).bind fun setter => setter config entry.2

/-- The configuration that a document describes, before it is checked. -/
def ofDocument? (text : Text) : Option Config :=
  (Toml.read? text).bind fun entries => entries.foldlM set? {}

/-- Reads and checks a configuration; `origin` is where it comes from. -/
def parse (text : Text) (origin : Path) : Except Failure Config :=
  match ofDocument? text with
  | none => .error (.parseConfig origin)
  | some config =>
    match config.check with
    | .ok _ => .ok config
    | .error problem => .error (.invalidConfig problem)

end MemberSplit.Config
