import MemberSplit.Proofs.FileTree.Place
import MemberSplit.Proofs.Path.Pieces

/-!
# The places of paths in one directory

Tidy paths that are seen from one directory, and do not leave it by two dots, have different places
unless they are the same.
-/

namespace MemberSplit.FileTree

/-- Pieces that do not go up lead to what they name below. -/
theorem foldl_advance_eq_append {pieces : List Text}
    (h : (".." : Text) ∉ pieces.filter fun piece => !Path.isFiller piece) (place : Place) :
    pieces.foldl advance place = place ++ pieces.filter fun piece => !Path.isFiller piece := by
  induction pieces generalizing place with
  | nil => simp
  | cons piece rest ih =>
      rw [List.foldl_cons]
      cases hfiller : Path.isFiller piece with
      | true =>
          rw [List.filter_cons_of_neg (by simp [hfiller])] at h ⊢
          rw [advance, if_pos hfiller]
          exact ih h place
      | false =>
          rw [List.filter_cons_of_pos (by simp [hfiller])] at h ⊢
          obtain ⟨hpiece, hrest⟩ := not_or.mp fun hmem => h (List.mem_cons.mpr hmem)
          rw [advance, if_neg (by simp [hfiller]), if_neg (Ne.symm hpiece), ih hrest]
          simp

theorem startOf_of_ne_nil (tree : FileTree) {base : Path} (hne : base ≠ []) (rest : Path) :
    tree.startOf (base ++ rest) = tree.startOf base := by
  cases base with
  | nil => exact absurd rfl hne
  | cons c others => rfl

/-- A path that is seen from a directory starts where that directory is. -/
theorem placeOf_join (tree : FileTree) (base : Path) :
    ∃ start, ∀ path, Path.isAbsolute path = false →
      tree.placeOf (base.join path) = path.pieces.foldl advance start := by
  by_cases hempty : base = []
  · subst hempty
    refine ⟨tree.workingDirectory, fun path hrelative => ?_⟩
    have hjoin : Path.join [] path = path := by simp [Path.join, hrelative]
    rw [hjoin, placeOf_eq_foldl, startOf, if_neg (by simp [hrelative])]
  · by_cases hslash : base.getLast? = some '/'
    · obtain ⟨front, rfl⟩ := List.getLast?_eq_some_iff.mp hslash
      refine ⟨(Path.pieces front).foldl advance (tree.startOf (front ++ ['/'])), ?_⟩
      intro path hrelative
      have hjoin : Path.join (front ++ ['/']) path = front ++ '/' :: path := by
        simp [Path.join, hrelative]
      have hstart := tree.startOf_of_ne_nil hempty path
      rw [List.append_assoc, List.singleton_append] at hstart
      rw [hjoin, placeOf_eq_foldl, hstart, Path.pieces_append_slash, List.foldl_append]
    · refine ⟨(Path.pieces base).foldl advance (tree.startOf base), ?_⟩
      intro path hrelative
      have hjoin : Path.join base path = base ++ '/' :: path := by
        simp [Path.join, hrelative, hempty, hslash]
      rw [hjoin, placeOf_eq_foldl, tree.startOf_of_ne_nil hempty, Path.pieces_append_slash,
        List.foldl_append]

/-- Tidy paths without two dots lead to different places from one directory. -/
theorem eq_of_placeOf_join_eq {tree : FileTree} {base first second : Path}
    (hfirst : FileNaming.tidy first = first) (hsecond : FileNaming.tidy second = second)
    (hdots : Path.Component.parent ∉ first.components)
    (hdots' : Path.Component.parent ∉ second.components)
    (h : tree.placeOf (base.join first) = tree.placeOf (base.join second)) : first = second := by
  obtain ⟨start, hplace⟩ := tree.placeOf_join base
  have hrelative : ∀ path, FileNaming.tidy path = path → Path.isAbsolute path = false :=
    fun path htidy => htidy ▸ Path.isAbsolute_tidy path
  rw [hplace first (hrelative first hfirst), hplace second (hrelative second hsecond),
    foldl_advance_eq_append (Path.dots_not_mem_names hdots),
    foldl_advance_eq_append (Path.dots_not_mem_names hdots')] at h
  exact Path.eq_of_names_eq hfirst hsecond (List.append_cancel_left h)

end MemberSplit.FileTree
