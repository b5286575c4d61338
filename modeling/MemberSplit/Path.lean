import MemberSplit.Text.Basic

/-!
# Paths

A path is text in which slashes separate components. It is kept as it was given; what it means is
read off its pieces, where an empty piece or a single dot behind the first piece means nothing.
-/

namespace MemberSplit

/-- A path as it is written. -/
abbrev Path := List Char

namespace Path

/-- One step of a path. -/
inductive Component where
  /-- The root directory. -/
  | root
  /-- The current directory, at the start of a path. -/
  | current
  /-- The parent directory. -/
  | parent
  | name (name : Text)
  deriving DecidableEq, Repr

/-- Whether the path holds the character that ends paths for the operating system. -/
def holdsNul (path : Path) : Bool :=
  path.contains '\x00'

/-- What stands between the slashes of a path. -/
def pieces (path : Path) : List Text :=
  Text.splitBy (· == '/') path

/-- Whether a piece behind the first one means nothing. -/
def isFiller (piece : Text) : Bool :=
  piece.isEmpty || piece = "."

/-- The component that a piece stands for. -/
def component (piece : Text) : Component :=
  if piece = "." then .current
  else if piece = ".." then .parent
  else .name piece

/-- The components of a path. -/
def components (path : Path) : List Component :=
  match pieces path with
  | [] => []
  | first :: rest =>
    let start :=
      if !first.isEmpty then [component first]
      else if path.isEmpty then []
      else [.root]
    start ++ (rest.filter fun piece => !isFiller piece).map component

/-- Whether the path starts at the root. -/
def isAbsolute (path : Path) : Bool :=
  path.head? = some '/'

/-- A path that is meant to be seen from the directory `base`. -/
def join (base path : Path) : Path :=
  if path.isAbsolute then path
  else if base.isEmpty || base.getLast? = some '/' then base ++ path
  else base ++ '/' :: path

/-- The pieces without those at the end that mean nothing. -/
def dropFillers (pieces : List Text) : List Text :=
  (pieces.reverse.dropWhile isFiller).reverse

/-- The pieces in front of the last component, and that component; `none` for the root and for the
empty path. -/
def splitLast? (path : Path) : Option (List Text × Text) :=
  match pieces path with
  | [] => none
  | first :: rest =>
    match (dropFillers rest).reverse with
    | last :: before => some (first :: before.reverse, last)
    | [] => if first.isEmpty then none else some ([], first)

/-- The path without its last component. -/
def parent? (path : Path) : Option Path :=
  (splitLast? path).map fun (before, _) =>
    match before with
    | [] => []
    | first :: rest =>
      let kept := dropFillers rest
      if first.isEmpty && kept.isEmpty then "/" else Text.joinWith ['/'] (first :: kept)

/-- The last component, if it names a file or directory. -/
def fileName? (path : Path) : Option Text :=
  match splitLast? path with
  | none => none
  | some (_, last) => if last = "." || last = ".." then none else some last

/-- A file name split at its last dot; a dot at the start splits nothing. -/
def splitExtension (name : Text) : Text × Option Text :=
  match name.splitAtLast? "." with
  | none => (name, none)
  | some (before, after) => if before.isEmpty then (name, none) else (before, some after)

/-- The file name without its extension. -/
def stem? (path : Path) : Option Text :=
  path.fileName?.map fun name => (splitExtension name).1

/-- The extension of the file name. -/
def extension? (path : Path) : Option Text :=
  path.fileName?.bind fun name => (splitExtension name).2

/-- The path with another extension, or the path itself if it names no file. -/
def withExtension (path : Path) (extension : Text) : Path :=
  match splitLast? path, path.stem? with
  | some (before, _), some stem =>
    Text.joinWith ['/'] (before ++ [stem ++ '.' :: extension])
  | _, _ => path

end Path

end MemberSplit
