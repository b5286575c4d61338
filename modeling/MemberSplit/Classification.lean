import MemberSplit.Config.Basic
import MemberSplit.Definition.Basic
import MemberSplit.Diagnostic
import MemberSplit.Log

/-!
# Classification

Each definition belongs to the core, to the overload group of a variant type, or to the helpers.
The rules are tried in a fixed order; a definition that none of them claims is a helper by default,
which is worth a warning.
-/

namespace MemberSplit

/-- A group of definitions that share a file. -/
inductive Group where
  | core
  /-- The overloads of the dispatch method for one variant type. -/
  | dispatch (key : Text)
  | helper
  deriving DecidableEq, Repr

/-- The word for a group in a report. -/
def Group.label : Group → Text
  | .core => "core"
  | .dispatch key => "dispatch:" ++ key
  | .helper => "helper"

/-- The rule that put a definition into its group. -/
inductive Rule where
  /-- The name is a core function. -/
  | coreAllowlist
  /-- The dispatch method, for a variant type. -/
  | dispatchVariant
  /-- The dispatch method, for a variant type that is excluded. -/
  | dispatchExcluded
  /-- The name is a helper function. -/
  | explicitHelper
  /-- No other rule. -/
  | default
  deriving DecidableEq, Repr

/-- The name of a rule. -/
def Rule.label : Rule → Text
  | .coreAllowlist => "CoreAllowlist"
  | .dispatchVariant => "DispatchVariant"
  | .dispatchExcluded => "DispatchExcluded"
  | .explicitHelper => "ExplicitHelper"
  | .default => "Default"

/-- A definition with its group and the rule that put it there. -/
structure Classified where
  definition : Definition
  group : Group
  rule : Rule
  deriving DecidableEq, Repr

namespace Config

/-- Whether an entry names a definition. An entry with `::` is compared with the qualified name,
any other entry with the bare name. -/
def entryMatches (mode : NameMatch) (definition : Definition) (entry : Text) : Bool :=
  let name := if Text.contains entry "::" then definition.qualifiedName else definition.name
  match mode with
  | .exact => name = entry
  | .substring => Text.contains name entry

/-- Whether one of the entries names a definition. -/
def names (mode : NameMatch) (entries : NameSet) (definition : Definition) : Bool :=
  entries.toList.any (entryMatches mode definition)

/-- Whether a variant type is excluded, by its name or by the last component of its name. -/
def excludes (config : Config) (key : Text) : Bool :=
  config.dispatchExclusions.contains key ||
    config.dispatchExclusions.contains key.lastComponent

/-- The group of a definition, and the rule that puts it there. -/
def classify (config : Config) (definition : Definition) : Group × Rule :=
  if names config.coreMatch config.coreFunctions definition then (.core, .coreAllowlist)
  else
    let key := if definition.name = config.dispatchMethod then definition.baseType? else none
    match key with
    | some key =>
      if config.excludes key then (.helper, .dispatchExcluded)
      else (.dispatch key, .dispatchVariant)
    | none =>
      if names .exact config.helperFunctions definition then (.helper, .explicitHelper)
      else (.helper, .default)

/-- A definition with its group. -/
def classified (config : Config) (definition : Definition) : Classified :=
  let (group, rule) := config.classify definition
  { definition, group, rule }

/-- Why no rule claimed a definition. -/
def unclaimedReason (config : Config) (definition : Definition) : Text :=
  if definition.name = config.dispatchMethod then
    Text.concat ["`", config.dispatchMethod, "` overload without a parameter type"]
  else "no rule matched"

/-- The warning for a definition that no rule claimed. -/
def defaultDiagnostic? (config : Config) (classified : Classified) : Option Diagnostic :=
  if classified.rule = .default then
    let definition := classified.definition
    some (.defaulted definition.qualifiedName definition.line (config.unclaimedReason definition))
  else none

/-- What the log says about a classified definition. -/
def classificationLog (config : Config) (classified : Classified) : Log.Line :=
  let name := classified.definition.qualifiedName
  match config.defaultDiagnostic? classified with
  | some diagnostic => ⟨.warn, diagnostic.message⟩
  | none =>
    Log.line .debug ["`", name, "` -> ", classified.group.label, " (", classified.rule.label, ")"]

end Config

end MemberSplit
