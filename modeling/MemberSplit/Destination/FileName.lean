import MemberSplit.Classification
import MemberSplit.Text.FileComponent

/-!
# File names of groups

The path of a group's file, seen from the output directory, is its template with the placeholders
filled in. What comes from the source is made safe for a file name before it is filled in.
-/

namespace MemberSplit

/-- The templates for file names, and what is filled in for the placeholders of all of them. -/
structure FileNaming where
  templates : Config.FileNames
  owner : Text
  method : Text
  extension : Text
  deriving DecidableEq, Repr

namespace FileNaming

/-- The extension of the files if the input has none. -/
def defaultExtension : Text := "cpp"

/-- The file names for the members of `owner`, with the extension of the input. -/
def ofConfig (config : Config) (owner : Text) (extension : Option Text) : FileNaming where
  templates := config.fileNames
  owner := owner.fileComponent
  method := config.dispatchMethod.fileComponent
  extension := (extension.filter fun text => !text.isEmpty).getD defaultExtension

/-- A template with its placeholders filled in, one kind after the other. -/
def expand (namer : FileNaming) (template key : Text) : Text :=
  let withOwner := template.replace Config.ownerPlace namer.owner
  let withMethod := withOwner.replace Config.methodPlace namer.method
  let withKey := withMethod.replace Config.keyPlace key
  withKey.replace Config.extensionPlace namer.extension

/-- The path without its empty and single-dot pieces. -/
def tidy (path : Path) : Path :=
  Text.joinWith ['/'] (path.pieces.filter fun piece => !Path.isFiller piece)

/-- The path of a group's file, seen from the output directory. -/
def path (namer : FileNaming) : Group → Path
  | .core => tidy (namer.expand namer.templates.core [])
  | .dispatch key => tidy (namer.expand namer.templates.dispatch key.fileComponent)
  | .helper => tidy (namer.expand namer.templates.helper [])

end FileNaming

end MemberSplit
