import MemberSplit.FileTree.Contents
import MemberSplit.FileTree.Write

/-!
# The place of a path

A path is followed only through directories, but where it leads does not depend on them: the place
can be read off the path and the working directory. So a path that can be followed leads to the same
place in every later tree that has kept its directories.
-/

namespace MemberSplit.FileTree

/-- Where one piece of a path leads from a place. -/
def advance (place : Place) (piece : Text) : Place :=
  if Path.isFiller piece then place
  else if piece = ".." then place.dropLast
  else place ++ [piece]

theorem placeOf_eq_foldl (tree : FileTree) (path : Path) :
    tree.placeOf path = path.pieces.foldl advance (tree.startOf path) := rfl

theorem placeOf_congr {tree later : FileTree}
    (h : later.workingDirectory = tree.workingDirectory) (path : Path) :
    later.placeOf path = tree.placeOf path := by
  simp only [placeOf_eq_foldl, startOf, h]

theorem requireDirectory_eq_ok_iff {tree : FileTree} {place : Place} :
    tree.requireDirectory place = .ok () ↔ tree.node? place = some .directory := by
  unfold requireDirectory
  split <;> simp_all

/-- A step starts in a directory and leads on by its piece. -/
theorem step_eq_ok {tree : FileTree} {place next : Place} {piece : Text}
    (h : tree.step place piece = .ok next) :
    tree.node? place = some .directory ∧ next = advance place piece := by
  unfold step at h
  split at h
  next => simp at h
  next hrequire =>
    refine ⟨requireDirectory_eq_ok_iff.mp hrequire, ?_⟩
    unfold advance
    repeat' split at h
    all_goals simp_all

/-- All that a step asks of the tree is the directory that it starts in. -/
theorem step_congr {tree later : FileTree} {place : Place}
    (htree : tree.node? place = some .directory) (hlater : later.node? place = some .directory)
    (piece : Text) : later.step place piece = tree.step place piece := by
  unfold step
  rw [requireDirectory_eq_ok_iff.mpr htree, requireDirectory_eq_ok_iff.mpr hlater]

theorem walk_cons_eq_ok_iff {tree : FileTree} {place last : Place} {piece : Text}
    {rest : List Text} :
    tree.walk place (piece :: rest) = .ok last ↔
      ∃ next, tree.step place piece = .ok next ∧ tree.walk next rest = .ok last := by
  cases hstep : tree.step place piece <;>
    simp [walk, List.foldlM_cons, hstep, bind, Except.bind]

/-- A walk leads where its pieces lead one after the other. -/
theorem walk_eq_foldl {tree : FileTree} {place last : Place} {pieces : List Text}
    (h : tree.walk place pieces = .ok last) : last = pieces.foldl advance place := by
  induction pieces generalizing place with
  | nil => exact (Except.ok.inj h).symm
  | cons piece rest ih =>
      obtain ⟨next, hstep, hrest⟩ := walk_cons_eq_ok_iff.mp h
      obtain ⟨-, rfl⟩ := step_eq_ok hstep
      exact ih hrest

theorem locate_eq_ok_iff {tree : FileTree} {path : Path} {place : Place} :
    tree.locate path = .ok place ↔ path.holdsNul = false ∧ path ≠ [] ∧
      Text.byteLength path ≤ pathLimit ∧
      tree.walk (tree.startOf path) path.pieces = .ok place := by
  unfold locate
  split
  next hnul => simp [hnul]
  next hnul =>
    split
    next hempty => simp [List.isEmpty_iff.mp hempty]
    next hempty =>
      have hne : path ≠ [] := by simpa using hempty
      split
      next hlong =>
        have hnot : ¬ Text.byteLength path ≤ pathLimit := Nat.not_le.mpr hlong
        simp [hnot]
      next hshort => simp [hnul, hne, Nat.le_of_not_lt hshort]

theorem locate_eq_placeOf {tree : FileTree} {path : Path} {place : Place}
    (h : tree.locate path = .ok place) : place = tree.placeOf path := by
  obtain ⟨-, -, -, hwalk⟩ := locate_eq_ok_iff.mp h
  exact walk_eq_foldl hwalk

theorem find_of_locate {tree : FileTree} {path : Path} {place : Place}
    (hlocate : tree.locate path = .ok place) :
    tree.find path = match tree.node? place with
      | none => .error .noSuchFile
      | some node => .ok node := by
  rw [find, hlocate]
  rfl

/-- What is found is what the tree has at the place that the path leads to. -/
theorem find_eq_ok_iff {tree : FileTree} {path : Path} {node : FileNode} :
    tree.find path = .ok node ↔ ∃ place, tree.locate path = .ok place ∧
      tree.node? place = some node := by
  cases hlocate : tree.locate path with
  | error error => simp [find, hlocate, Except.bind]
  | ok place =>
      rw [find_of_locate hlocate]
      cases hnode : tree.node? place <;> simp [hnode]

theorem read_eq_ok_iff_find {tree : FileTree} {path : Path} {bytes : Bytes} :
    tree.read path = .ok bytes ↔ ∃ mode, tree.find path = .ok (.file bytes mode) := by
  unfold read
  cases tree.find path with
  | error error => simp [Except.bind]
  | ok node => cases node <;> simp [Except.bind]

/-- What is read is the contents of a file at the place that the path leads to. -/
theorem read_eq_ok_iff {tree : FileTree} {path : Path} {bytes : Bytes} :
    tree.read path = .ok bytes ↔ ∃ place mode, tree.locate path = .ok place ∧
      tree.node? place = some (.file bytes mode) := by
  simp only [read_eq_ok_iff_find, find_eq_ok_iff]
  exact exists_comm

/-- Paths of one place lead to the same file. -/
theorem eq_of_placeOf_eq {tree : FileTree} {first second : Path} {bytes bytes' : Bytes}
    (hfirst : tree.read first = .ok bytes) (hsecond : tree.read second = .ok bytes')
    (h : tree.placeOf first = tree.placeOf second) : bytes = bytes' := by
  obtain ⟨place, mode, hlocate, hnode⟩ := read_eq_ok_iff.mp hfirst
  obtain ⟨place', mode', hlocate', hnode'⟩ := read_eq_ok_iff.mp hsecond
  rw [locate_eq_placeOf hlocate, h, ← locate_eq_placeOf hlocate', hnode'] at hnode
  exact (FileNode.file.inj (Option.some.inj hnode)).1.symm

/-- The later tree starts from the same directory and has all directories of the earlier one. -/
structure KeepsDirectories (tree later : FileTree) : Prop where
  workingDirectory_eq : later.workingDirectory = tree.workingDirectory
  directory : ∀ place, tree.node? place = some .directory → later.node? place = some .directory

namespace KeepsDirectories

variable {tree later : FileTree}

theorem walk (h : KeepsDirectories tree later) {place last : Place} {pieces : List Text}
    (hwalk : tree.walk place pieces = .ok last) : later.walk place pieces = .ok last := by
  induction pieces generalizing place with
  | nil => exact hwalk
  | cons piece rest ih =>
      obtain ⟨next, hstep, hrest⟩ := walk_cons_eq_ok_iff.mp hwalk
      obtain ⟨hdirectory, -⟩ := step_eq_ok hstep
      have hlater := step_congr hdirectory (h.directory place hdirectory) piece
      exact walk_cons_eq_ok_iff.mpr ⟨next, hlater.trans hstep, ih hrest⟩

/-- A path that could be followed can still be followed, to the same place. -/
theorem locate (h : KeepsDirectories tree later) {path : Path} {place : Place}
    (hlocate : tree.locate path = .ok place) : later.locate path = .ok place := by
  obtain ⟨hnul, hne, hshort, hwalk⟩ := locate_eq_ok_iff.mp hlocate
  refine locate_eq_ok_iff.mpr ⟨hnul, hne, hshort, ?_⟩
  have hstart : later.startOf path = tree.startOf path := by
    simp only [startOf, h.workingDirectory_eq]
  rw [hstart]
  exact h.walk hwalk

end KeepsDirectories

end MemberSplit.FileTree
