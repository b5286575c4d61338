import MemberSplit.OsError
import MemberSplit.Path
import MemberSplit.Text.Utf8

/-!
# File trees

The files and directories that a run sees. A place is named by the directories that lead to it from
the root. A path finds its place step by step, and each step must start in a directory.
-/

namespace MemberSplit

/-- The names that lead to a file or directory from the root. -/
abbrev Place := List Text

/-- A file or directory. -/
inductive FileNode where
  | directory
  /-- A file with its contents and its permissions. -/
  | file (bytes : Bytes) (mode : Nat)
  deriving DecidableEq, Repr

/-- Files and directories, and the directory that relative paths start from. -/
structure FileTree where
  /-- What is at each place, the root apart. -/
  nodes : List (Place × FileNode)
  workingDirectory : Place
  deriving DecidableEq, Repr

namespace FileTree

/-- What is at a place; the root is a directory. -/
def node? (tree : FileTree) (place : Place) : Option FileNode :=
  if place.isEmpty then some .directory else tree.nodes.lookup place

/-- The list of nodes with a node put at a place. -/
def putNode (place : Place) (node : FileNode) :
    List (Place × FileNode) → List (Place × FileNode)
  | [] => [(place, node)]
  | (other, old) :: rest =>
    if other = place then (place, node) :: rest else (other, old) :: putNode place node rest

/-- The tree with a node put at a place. -/
def set (tree : FileTree) (place : Place) (node : FileNode) : FileTree :=
  { tree with nodes := putNode place node tree.nodes }

theorem lookup_putNode (place other : Place) (node : FileNode)
    (nodes : List (Place × FileNode)) :
    (putNode place node nodes).lookup other =
      if other = place then some node else nodes.lookup other := by
  induction nodes with
  | nil =>
    by_cases h : other = place
    · simp [putNode, h]
    · simp [putNode, List.lookup_cons, beq_eq_false_iff_ne.mpr h, h]
  | cons head rest ih =>
    obtain ⟨first, old⟩ := head
    by_cases hfirst : first = place
    · subst hfirst
      by_cases h : other = first
      · simp [putNode, h]
      · simp [putNode, List.lookup_cons, beq_eq_false_iff_ne.mpr h, h]
    · by_cases h : other = first
      · subst h
        simp [putNode, hfirst]
      · simp [putNode, List.lookup_cons, hfirst, beq_eq_false_iff_ne.mpr h, ih]

/-- A node that is put at a place is there, and all others stay as they are. -/
theorem node?_set {tree : FileTree} {place : Place} (hplace : place ≠ []) (node : FileNode)
    (other : Place) :
    (tree.set place node).node? other = if other = place then some node else tree.node? other := by
  unfold node? set
  by_cases hother : other = []
  · subst hother
    simp [Ne.symm hplace]
  · simp [hother, lookup_putNode]

/-- Succeeds if there is a directory at the place. -/
def requireDirectory (tree : FileTree) (place : Place) : Except OsError Unit :=
  match tree.node? place with
  | none => .error .noSuchFile
  | some (.file _ _) => .error .notDirectory
  | some .directory => .ok ()

/-- The longest name that a file can have, in bytes. -/
def nameLimit : Nat := 255

/-- The longest path that can be looked up, in bytes. -/
def pathLimit : Nat := 4095

/-- Goes one piece of a path on from a directory. -/
def step (tree : FileTree) (place : Place) (piece : Text) : Except OsError Place :=
  match tree.requireDirectory place with
  | .error error => .error error
  | .ok _ =>
    if Path.isFiller piece then .ok place
    else if piece = ".." then .ok place.dropLast
    else if nameLimit < piece.byteLength then .error .nameTooLong
    else .ok (place ++ [piece])

/-- Goes along pieces of a path. -/
def walk (tree : FileTree) (place : Place) (pieces : List Text) : Except OsError Place :=
  pieces.foldlM tree.step place

/-- Where a path starts. -/
def startOf (tree : FileTree) (path : Path) : Place :=
  if path.isAbsolute then [] else tree.workingDirectory

/-- The place that a path names, whether or not something is there. -/
def locate (tree : FileTree) (path : Path) : Except OsError Place :=
  if path.holdsNul then .error .nulInPath
  else if path.isEmpty then .error .noSuchFile
  else if pathLimit < Text.byteLength path then .error .nameTooLong
  else tree.walk (tree.startOf path) path.pieces

/-- What a path leads to. -/
def find (tree : FileTree) (path : Path) : Except OsError FileNode :=
  (tree.locate path).bind fun place =>
    match tree.node? place with
    | none => .error .noSuchFile
    | some node => .ok node

/-- The contents of the file that a path leads to. Its permissions never refuse a read, as for the
superuser; who may not read a file cannot see that it has the text to be written already. -/
def read (tree : FileTree) (path : Path) : Except OsError Bytes :=
  (tree.find path).bind fun node =>
    match node with
    | .directory => .error .isDirectory
    | .file bytes _ => .ok bytes

/-- The permissions of the file that a path leads to. -/
def mode? (tree : FileTree) (path : Path) : Option Nat :=
  match tree.find path with
  | .ok (.file _ mode) => some mode
  | _ => none

/-- Whether a path leads to a directory. -/
def isDirectory (tree : FileTree) (path : Path) : Bool :=
  match tree.find path with
  | .ok .directory => true
  | _ => false

end FileTree

end MemberSplit
