import MemberSplit.Config.Basic

/-!
# Where files go, and how the input refers to them

The path of a file is seen from the output directory, and that directory from the directory of the
input. A reference names the same file as the input sees it.
-/

namespace MemberSplit.Location

/-- The directory that the paths of files are seen from. -/
def outputBase (input directory : Path) : Path :=
  if directory.isAbsolute then directory
  else
    match input.parent? with
    | some parent => parent.join directory
    | none => directory

/-- How a component of a path that is text is written in a reference; `shownPart?` is for paths of
any bytes. -/
def referencePart? : Path.Component → Option Text
  | .root => some []
  | .current => none
  | .parent => some ".."
  | .name name => some name

/-- The path by which the input refers to a file. -/
def pathFromInput (directory path : Path) : Path :=
  Text.joinWith ['/'] ((directory.components ++ path.components).filterMap referencePart?)

/-- The line by which the input refers to a file. -/
def reference (template : Text) (directory path : Path) : Text :=
  template.replace Config.pathPlace (pathFromInput directory path)

end MemberSplit.Location
