import MemberSplit.FileTree.Basic

/-!
# Writing files

A file is written whole: its new contents go to a temporary file beside it, which then takes its
place in one step. So the tree never holds a file that is half written, and a write that fails
changes no file; it can leave new directories behind.
-/

namespace MemberSplit

/-- What writing a file came to. -/
inductive WriteResult where
  | written
  /-- The file held the text before and was left alone. -/
  | unchanged
  deriving DecidableEq, Repr

namespace Path

/-- The path and the paths of the directories above it, as far as they can be read off the text,
and at most `bound` of them. -/
def ancestors : (bound : Nat) → Path → List Path
  | 0, _ => []
  | bound + 1, path =>
    if path.isEmpty then []
    else path :: match path.parent? with
      | none => []
      | some parent => ancestors bound parent

end Path

namespace FileTree

/-- Where a new file or directory goes. -/
structure Target where
  /-- The place of the directory that it goes to. -/
  directory : Place
  name : Text
  /-- Whether the path ends in a slash, so that only a directory can be meant. -/
  slashed : Bool
  deriving DecidableEq, Repr

/-- Finds where a path leads by its last piece. Nothing new can go to the place of a path that ends
in a dot, two dots or the root: then the answer is `none`. -/
def target? (tree : FileTree) (path : Path) : Except OsError (Option Target) :=
  if path.isEmpty then .error .noSuchFile
  else if pathLimit < Text.byteLength path then .error .nameTooLong
  else
    let reversed := path.pieces.reverse
    match reversed.dropWhile List.isEmpty with
    | [] => .ok none
    | last :: before =>
      let directory := tree.walk (tree.startOf path) before.reverse
      directory.bind fun directory =>
        match tree.requireDirectory directory with
        | .error error => .error error
        | .ok _ =>
          if last = "." || last = ".." then .ok none
          else if nameLimit < Text.byteLength last then .error .nameTooLong
          else .ok (some ⟨directory, last, reversed.head?.any List.isEmpty⟩)

/-- Makes one directory. -/
def makeDirectory (tree : FileTree) (path : Path) : Except OsError FileTree :=
  if path.holdsNul then .error .nulInPath
  else match tree.target? path with
    | .error error => .error error
    | .ok none => .error .fileExists
    | .ok (some target) =>
      let place := target.directory ++ [target.name]
      if (tree.node? place).isSome then .error .fileExists
      else .ok (tree.set place .directory)

/-- Makes the first of some directories, which contain each other, and those of the others that it
needs. The directories that were made stay if a later one cannot be made. -/
def makeDirectories (tree : FileTree) : List Path → Except OsError Unit × FileTree
  | [] => (.ok (), tree)
  | path :: above =>
    let settle (tree : FileTree) (error : OsError) : Except OsError Unit × FileTree :=
      if tree.isDirectory path then (.ok (), tree) else (.error error, tree)
    match tree.makeDirectory path with
    | .ok made => (.ok (), made)
    | .error .noSuchFile =>
      match makeDirectories tree above with
      | (.error error, made) => (.error error, made)
      | (.ok _, made) =>
        match made.makeDirectory path with
        | .ok made => (.ok (), made)
        | .error error => settle made error
    | .error error => settle tree error

/-- Moves a temporary file with the given contents to a path. -/
def replaceFile (tree : FileTree) (path : Path) (bytes : Bytes) (mode : Nat) :
    Except OsError FileTree :=
  if path.holdsNul then .error .invalidArgument
  else match tree.target? path with
    | .error error => .error error
    | .ok none => .error .busy
    | .ok (some target) =>
      let place := target.directory ++ [target.name]
      if target.slashed then .error .notDirectory
      else if tree.node? place = some .directory then .error .isDirectory
      else .ok (tree.set place (.file bytes mode))

/-- The permissions of files that did not exist before. -/
def freshMode : Nat := 0o644

/-- The directory that the temporary file for a path goes to. -/
def temporaryDirectory (path : Path) : Path :=
  match path.parent? with
  | none | some [] => "."
  | some parent => parent

/-- Makes the directories that a path needs, and moves new contents to the path. A file that is
replaced keeps its permissions. -/
def install (tree : FileTree) (path : Path) (bytes : Bytes) :
    Except OsError WriteResult × FileTree :=
  let directory := temporaryDirectory path
  match tree.makeDirectories (directory.ancestors directory.length) with
  | (.error error, made) => (.error error, made)
  | (.ok _, made) =>
    match made.replaceFile path bytes ((made.mode? path).getD freshMode) with
    | .error error => (.error error, made)
    | .ok replaced => (.ok .written, replaced)

/-- Writes a text to a file, unless the file holds it already. -/
def write (tree : FileTree) (path : Path) (text : Text) : Except OsError WriteResult × FileTree :=
  let bytes := Utf8.encode text
  match tree.read path with
  | .ok old => if old = bytes then (.ok .unchanged, tree) else tree.install path bytes
  | .error _ => tree.install path bytes

end FileTree

end MemberSplit
