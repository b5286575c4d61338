import MemberSplit.Config.Basic
import MemberSplit.Failure

/-!
# Useful configurations

The settings that a run relies on: names are identifiers, each dispatch key has its file, the core
file and the helper file have names of their own, and a reference shows the path of its file.
-/

namespace MemberSplit.Config

/-- Whether the text is an ASCII letter or underscore, and then such characters and digits. -/
def isIdentifier : Text → Bool
  | [] => false
  | c :: rest => isIdentStart c && rest.all fun c => c.isAlphanum || c == '_'

/-- The components of a name that are separated by `::`, where `pending` says whether the second
colon of a separator comes next. -/
def splitQualified : (pending : Bool) → Text → List Text
  | _, [] => [[]]
  | true, _ :: rest => splitQualified false rest
  | false, c :: rest =>
    if c = ':' && rest.head? = some ':' then [] :: splitQualified true rest
    else Text.consPiece c (splitQualified false rest)

/-- Whether the text is made of identifiers with `::` between them. -/
def isQualifiedName (text : Text) : Bool :=
  (splitQualified false text).all isIdentifier

/-- Checks the settings; of several problems the first is told. -/
def check (config : Config) : Except ConfigProblem Unit :=
  if let some owner := config.owner.filter fun owner => !isQualifiedName owner then
    .error (.ownerNotIdentifier owner)
  else if !isIdentifier config.dispatchMethod then
    .error (.methodNotIdentifier config.dispatchMethod)
  else if !Text.contains config.fileNames.dispatch keyPlace then
    .error .dispatchFileWithoutKey
  else if config.fileNames.core.trim.isEmpty then .error .emptyCoreFile
  else if config.fileNames.helper.trim.isEmpty then .error .emptyHelperFile
  else if config.fileNames.core = config.fileNames.helper then .error .sharedFile
  else if !Text.contains config.referenceTemplate pathPlace then .error .referenceWithoutPath
  else .ok ()

/-- The type whose members are split: the configured one, or the stem of the input's name. -/
def ownerFor (config : Config) (input : Path) : Except ConfigProblem Text :=
  match config.owner with
  | some owner => .ok owner
  | none =>
    let stem := input.stem?.getD []
    if isIdentifier stem then .ok stem else .error (.unknownOwner input)

end MemberSplit.Config
