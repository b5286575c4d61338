import MemberSplit.FileTree.Basic

/-!
# The contents of a file tree

Trees are set up by putting files and directories at places, and are looked at by listing what is
below the working directory. The directories above what is put are made as well, so that a tree
never holds something below a place that is no directory.
-/

namespace MemberSplit.FileTree

/-- The place that a path means if each of its pieces is followed, whether or not there are such
directories. -/
def placeOf (tree : FileTree) (path : Path) : Place :=
  path.pieces.foldl
    (fun place piece =>
      if Path.isFiller piece then place
      else if piece = ".." then place.dropLast
      else place ++ [piece])
    (tree.startOf path)

/-- Makes the directories from `place` down along `names`. -/
def putDirectories (tree : FileTree) (place : Place) : List Text → FileTree
  | [] => tree
  | name :: rest =>
    let next := place ++ [name]
    let made := if tree.node? next = some .directory then tree else tree.set next .directory
    putDirectories made next rest

/-- Puts a directory at a place. -/
def putDirectory (tree : FileTree) (place : Place) : FileTree :=
  tree.putDirectories [] place

/-- Puts a file at a place. -/
def putFile (tree : FileTree) (place : Place) (bytes : Bytes) (mode : Nat) : FileTree :=
  (tree.putDirectory place.dropLast).set place (.file bytes mode)

/-- The tree in which there is only the working directory. -/
def ofWorkingDirectory (place : Place) : FileTree :=
  { nodes := [], workingDirectory := place : FileTree }.putDirectory place

/-- Takes away what is at a place and below it. -/
def remove (tree : FileTree) (place : Place) : FileTree :=
  { tree with nodes := tree.nodes.filter fun node => !place.isPrefixOf node.1 }

/-- The rest of a place that is below another one. -/
def below? (place other : Place) : Option Place :=
  if place.isPrefixOf other && place.length < other.length then some (other.drop place.length)
  else none

/-- What is below a place, named from there. -/
def nodesBelow (tree : FileTree) (place : Place) : List (Place × FileNode) :=
  tree.nodes.filterMap fun node => (below? place node.1).map fun rest => (rest, node.2)

/-- What is below the working directory, without the directories that hold something. -/
def contents (tree : FileTree) : List (Place × FileNode) :=
  (tree.nodesBelow tree.workingDirectory).filter fun node =>
    node.2 ≠ .directory || (tree.nodesBelow (tree.workingDirectory ++ node.1)).isEmpty

end MemberSplit.FileTree
