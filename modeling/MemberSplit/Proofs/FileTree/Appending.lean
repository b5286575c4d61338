import MemberSplit.Proofs.FileTree.Outcome

/-!
# Adding to a file

Between two runs, a text can be added to the end of a file. That keeps all directories, and every
file still holds what it held.
-/

namespace MemberSplit.FileTree

/-- The tree in which a text has been added to the end of a file. -/
def append (tree : FileTree) (path : Path) (more : Text) : FileTree :=
  match tree.locate path with
  | .error _ => tree
  | .ok place =>
    match tree.node? place with
    | some (.file bytes mode) => tree.set place (.file (bytes ++ Utf8.encode more) mode)
    | _ => tree

theorem append_cases (tree : FileTree) (path : Path) (more : Text) :
    tree.append path more = tree ∨
      ∃ place bytes mode, place ≠ [] ∧ tree.node? place = some (.file bytes mode) ∧
        tree.append path more = tree.set place (.file (bytes ++ Utf8.encode more) mode) := by
  unfold append
  split
  next => exact .inl rfl
  next place _ =>
    split
    next bytes mode hnode =>
      refine .inr ⟨place, bytes, mode, ?_, hnode, rfl⟩
      rintro rfl
      simp [node?] at hnode
    next => exact .inl rfl

theorem keepsDirectories_append (tree : FileTree) (path : Path) (more : Text) :
    KeepsDirectories tree (tree.append path more) := by
  obtain hsame | ⟨place, bytes, mode, hne, hnode, hset⟩ := tree.append_cases path more
  · rw [hsame]
    exact ⟨rfl, fun _ hdirectory => hdirectory⟩
  · rw [hset]
    refine ⟨rfl, ?_⟩
    intro other hdirectory
    rw [node?_set hne, if_neg]
    · exact hdirectory
    · rintro rfl
      simp [hnode] at hdirectory

/-- Adding to a file takes nothing away from any file. -/
theorem Holds.append {tree : FileTree} {path : Path} {part : Text} (h : tree.Holds path part)
    (other : Path) (more : Text) : (tree.append other more).Holds path part := by
  obtain ⟨text, hread, hpart⟩ := id h
  obtain ⟨place, mode, hlocate, hnode⟩ := read_eq_ok_iff.mp hread
  have hlocate' := (tree.keepsDirectories_append other more).locate hlocate
  obtain hsame | ⟨edited, bytes, mode', hne, hedited, hset⟩ := tree.append_cases other more
  · rw [hsame]
    exact h
  · -- The edited file holds more than before, any other file what it held.
    by_cases hplace : place = edited
    · subst hplace
      obtain ⟨rfl, rfl⟩ := FileNode.file.inj (Option.some.inj (hnode.symm.trans hedited))
      refine ⟨text ++ more, read_eq_ok_iff.mpr ⟨place, mode, hlocate', ?_⟩, ?_⟩
      · rw [hset, node?_set hne, if_pos rfl]
        simp [Utf8.encode]
      · exact List.infix_append_of_infix_left hpart
    · refine ⟨text, read_eq_ok_iff.mpr ⟨place, mode, hlocate', ?_⟩, hpart⟩
      rw [hset, node?_set hne, if_neg hplace, hnode]

end MemberSplit.FileTree
