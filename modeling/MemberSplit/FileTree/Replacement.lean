import MemberSplit.FileTree.Contents
import MemberSplit.FileTree.Write

/-!
# The steps of a write

A write makes directories, creates a temporary file, fills it, gives it permissions and moves it to
its path. The file system can refuse each of these steps: a disk is full, an owner may not change a
directory. Then the write ends there, and the temporary file is taken away again.
-/

namespace MemberSplit.FileTree

/-- A step that the file system can refuse. -/
inductive Step where
  /-- To make the directories. The lowest ones, `missing` of them, are not tried. -/
  | directories (missing : Nat)
  /-- To create the temporary file. -/
  | creation
  /-- To take in the contents behind their first `taken` bytes. -/
  | filling (taken : Nat)
  /-- To give the temporary file its permissions. -/
  | permissions
  /-- To move the temporary file to the path. -/
  | moving
  deriving DecidableEq, Repr

/-- A step that is refused, and the reason. -/
structure Refusal where
  step : Step
  error : OsError
  deriving DecidableEq, Repr

/-- The permissions that a temporary file is created with. -/
def temporaryMode : Nat := 0o600

/-- The directories that are made for a path if they are missing. -/
def directoriesFor (path : Path) : List Path :=
  (temporaryDirectory path).ancestors (temporaryDirectory path).length

/-- The place of a temporary file for a path. -/
def temporaryPlace (tree : FileTree) (path : Path) (name : Text) : Place :=
  tree.placeOf (temporaryDirectory path) ++ [name]

/-- Replaces the file at a path by way of a temporary file. -/
def replaceThrough (tree : FileTree) (refusal : Option Refusal) (temporary : Place) (path : Path)
    (bytes : Bytes) : Except OsError WriteResult × FileTree :=
  let created := tree.set temporary (.file [] temporaryMode)
  let filled := created.set temporary (.file bytes temporaryMode)
  let mode := (filled.mode? path).getD freshMode
  let permitted := filled.set temporary (.file bytes mode)
  let failed (error : OsError) (left : FileTree) : Except OsError WriteResult × FileTree :=
    (.error error, left.remove temporary)
  match refusal with
  | some ⟨.creation, error⟩ => (.error error, tree)
  | some ⟨.filling taken, error⟩ =>
    failed error (created.set temporary (.file (bytes.take taken) temporaryMode))
  | some ⟨.permissions, error⟩ => failed error filled
  | some ⟨.moving, error⟩ => failed error permitted
  | _ =>
    -- The temporary file leaves its place in the same moment in which it arrives at the path.
    match (permitted.remove temporary).replaceFile path bytes mode with
    | .error error => failed error permitted
    | .ok replaced => (.ok .written, replaced)

/-- Makes the directories that a path needs, and replaces the file at the path by way of a temporary
file with the given name. -/
def installThrough (tree : FileTree) (refusal : Option Refusal) (name : Text) (path : Path)
    (bytes : Bytes) : Except OsError WriteResult × FileTree :=
  match refusal with
  | some ⟨.directories missing, error⟩ =>
    (.error error, (tree.makeDirectories ((directoriesFor path).drop missing)).2)
  | _ =>
    match tree.makeDirectories (directoriesFor path) with
    | (.error error, made) => (.error error, made)
    | (.ok _, made) => made.replaceThrough refusal (made.temporaryPlace path name) path bytes

/-- Writes a text to a file step by step, unless the file holds it already. -/
def writeThrough (tree : FileTree) (refusal : Option Refusal) (name : Text) (path : Path)
    (text : Text) : Except OsError WriteResult × FileTree :=
  let bytes := Utf8.encode text
  match tree.read path with
  | .ok old =>
    if old = bytes then (.ok .unchanged, tree) else tree.installThrough refusal name path bytes
  | .error _ => tree.installThrough refusal name path bytes

/-- Nothing is at the place or below it. -/
def IsFree (tree : FileTree) (place : Place) : Prop :=
  ∀ node ∈ tree.nodes, ¬ place <+: node.1

instance (tree : FileTree) (place : Place) : Decidable (tree.IsFree place) :=
  inferInstanceAs (Decidable (∀ node ∈ tree.nodes, ¬ place <+: node.1))

/-- A temporary file of this name takes the place of nothing: neither of what is there when it is
created, nor of the file that is to be written. -/
def IsFreshName (tree : FileTree) (path : Path) (name : Text) : Prop :=
  let made := (tree.makeDirectories (directoriesFor path)).2
  made.IsFree (made.temporaryPlace path name) ∧ made.temporaryPlace path name ≠ made.placeOf path

instance (tree : FileTree) (path : Path) (name : Text) : Decidable (tree.IsFreshName path name) :=
  inferInstanceAs (Decidable (_ ∧ _))

end MemberSplit.FileTree
