import MemberSplit.Proofs.FileTree.Writing

/-!
# What one write comes to

A write that succeeds is one writing, and one that fails is none: it can leave new directories
behind, but no file is changed. Both the temporary file and the directories that are made for it are
accounted for.
-/

namespace MemberSplit.FileTree

/-- What a target says about its path: the pieces in front of the last name lead to a directory. -/
structure Targets (tree : FileTree) (path : Path) (target : Target) : Prop where
  ne_nil : path ≠ []
  short : Text.byteLength path ≤ pathLimit
  /-- The empty pieces that are passed over stand behind a final slash. -/
  pieces : ∃ before, path.pieces.reverse.dropWhile List.isEmpty = target.name :: before ∧
    tree.walk (tree.startOf path) before.reverse = .ok target.directory
  directory : tree.node? target.directory = some .directory
  isName : target.name ≠ "." ∧ target.name ≠ ".." ∧ target.name.byteLength ≤ nameLimit
  slashed : target.slashed = path.pieces.reverse.head?.any List.isEmpty

theorem targets_of_target? {tree : FileTree} {path : Path} {target : Target}
    (h : tree.target? path = .ok (some target)) : Targets tree path target := by
  unfold target? at h
  split at h
  next => simp at h
  next hne =>
    split at h
    next => simp at h
    next hshort =>
      simp only at h
      split at h
      next => simp at h
      next last before hpieces =>
        cases hwalk : tree.walk (tree.startOf path) before.reverse with
        | error error => simp [hwalk, Except.bind] at h
        | ok directory =>
            simp only [hwalk, Except.bind] at h
            split at h
            next => simp at h
            next hdirectory =>
              split at h
              next => simp at h
              next hdots =>
                split at h
                next => simp at h
                next hlimit =>
                  obtain rfl := Option.some.inj (Except.ok.inj h)
                  simp only [Bool.or_eq_true, decide_eq_true_eq, not_or] at hdots
                  exact ⟨by simpa using hne, Nat.le_of_not_lt hshort, ⟨before, hpieces, hwalk⟩,
                    requireDirectory_eq_ok_iff.mp hdirectory,
                    ⟨hdots.1, hdots.2, Nat.le_of_not_lt hlimit⟩, rfl⟩

/-- A walk that has come to a directory goes on to a name in it. -/
theorem walk_concat {tree : FileTree} {place directory : Place} {pieces : List Text} {name : Text}
    (hwalk : tree.walk place pieces = .ok directory)
    (hstep : tree.step directory name = .ok (directory ++ [name])) :
    tree.walk place (pieces ++ [name]) = .ok (directory ++ [name]) := by
  unfold walk at hwalk ⊢
  rw [List.foldlM_append, hwalk]
  simp [bind, Except.bind, hstep]
  rfl

/-- A path whose last piece is a name leads to its target, whether or not something is there. -/
theorem Targets.locate {tree : FileTree} {path : Path} {target : Target}
    (h : Targets tree path target) (hnul : path.holdsNul = false)
    (hslashed : target.slashed = false) :
    tree.locate path = .ok (target.directory ++ [target.name]) := by
  obtain ⟨before, hpieces, hwalk⟩ := h.pieces
  -- Nothing is passed over, so the name is the last piece and is not empty.
  have hlast : path.pieces.reverse = target.name :: before ∧ target.name.isEmpty = false := by
    have hhead := h.slashed.symm.trans hslashed
    cases hreversed : path.pieces.reverse with
    | nil => simp [hreversed] at hpieces
    | cons last others =>
        rw [hreversed] at hhead hpieces
        have hfull : last.isEmpty = false := by simpa using hhead
        rw [List.dropWhile_cons_of_neg (by simp [hfull])] at hpieces
        obtain ⟨rfl, rfl⟩ := List.cons.inj hpieces
        exact ⟨rfl, hfull⟩
  have hsplit : path.pieces = before.reverse ++ [target.name] := by
    rw [← List.reverse_reverse path.pieces, hlast.1, List.reverse_cons]
  obtain ⟨hdot, hdots, hlimit⟩ := h.isName
  have hstep : tree.step target.directory target.name =
      .ok (target.directory ++ [target.name]) := by
    simp only [step, requireDirectory_eq_ok_iff.mpr h.directory, Path.isFiller, hlast.2, hdot,
      hdots, Nat.not_lt.mpr hlimit, decide_false, Bool.or_self, Bool.false_eq_true, if_false]
  rw [locate_eq_ok_iff, hsplit]
  exact ⟨hnul, h.ne_nil, h.short, walk_concat hwalk hstep⟩

/-- A new directory is not a writing. -/
theorem wrote_set_directory {tree : FileTree} {place : Place} (hne : place ≠ [])
    (hnone : tree.node? place = none) : Wrote tree [] (tree.set place .directory) := by
  refine ⟨rfl, fun other => ?_, by simp⟩
  rw [node?_set hne]
  split
  next heq => exact .inr ⟨heq ▸ hnone, rfl⟩
  next => exact .inl rfl

theorem wrote_of_makeDirectory {tree made : FileTree} {path : Path}
    (h : tree.makeDirectory path = .ok made) : Wrote tree [] made := by
  unfold makeDirectory at h
  split at h
  next => simp at h
  next =>
    split at h
    next => simp at h
    next => simp at h
    next target htarget =>
      simp only at h
      split at h
      next => simp at h
      next hfree =>
        obtain rfl := Except.ok.inj h
        exact wrote_set_directory (by simp) (by simpa using hfree)

/-- Making directories writes nothing, however far it comes. -/
theorem wrote_makeDirectories (tree : FileTree) (paths : List Path) :
    Wrote tree [] (tree.makeDirectories paths).2 := by
  induction paths with
  | nil => exact .refl tree
  | cons path above ih =>
      -- Whether a failure is one depends on what is there now, but the tree does not.
      have hsettle : ∀ (made : FileTree) (error : OsError), Wrote tree [] made →
          Wrote tree [] (if made.isDirectory path then ((.ok (), made) : Except OsError Unit × _)
            else (.error error, made)).2 := by
        intro made error hmade
        split <;> exact hmade
      rw [makeDirectories]
      split
      next made hmade => exact wrote_of_makeDirectory hmade
      next =>
        split
        next error made habove => simpa [habove] using ih
        next made habove =>
          have hmade : Wrote tree [] made := by simpa [habove] using ih
          split
          next last hlast => simpa using hmade.trans (wrote_of_makeDirectory hlast)
          next error _ => exact hsettle made error hmade
      next error _ _ => exact hsettle tree error (.refl tree)

theorem mode?_getD_of_locate {tree : FileTree} {path : Path} {place : Place}
    (hlocate : tree.locate path = .ok place) :
    (tree.mode? path).getD freshMode = keptMode (tree.node? place) := by
  rw [mode?, find_of_locate hlocate]
  cases tree.node? place with
  | none => rfl
  | some node => cases node <;> rfl

/-- A file that is put where its path leads is a writing, unless it takes away a directory. -/
theorem wrote_set_file {tree : FileTree} {path : Path} {place : Place} (text : Text)
    (hne : place ≠ []) (hfree : tree.node? place ≠ some .directory)
    (hlocate : tree.locate path = .ok place) :
    Wrote tree [⟨path, text⟩]
      (tree.set place (.file (Utf8.encode text) (keptMode (tree.node? place)))) := by
  have hplace := locate_eq_placeOf hlocate
  have hkeeps : KeepsDirectories tree
      (tree.set place (.file (Utf8.encode text) (keptMode (tree.node? place)))) := by
    refine ⟨rfl, fun other hother => ?_⟩
    rw [node?_set hne, if_neg fun heq : other = place => hfree (heq ▸ hother)]
    exact hother
  refine ⟨rfl, fun other => ?_, fun writing hmem => ?_⟩
  · rw [lastText?_singleton, node?_set hne, ← hplace]
    by_cases heq : place = other
    · subst heq
      rw [if_pos rfl, if_pos rfl]
      exact ⟨hfree, rfl⟩
    · rw [if_neg heq, if_neg (Ne.symm heq)]
      exact .inl rfl
  · obtain rfl := List.mem_singleton.mp hmem
    rw [← hplace]
    exact hkeeps.locate hlocate

/-- Moving a file to a path is one writing. -/
theorem wrote_of_replaceFile {tree replaced : FileTree} {path : Path} {text : Text}
    (h : tree.replaceFile path (Utf8.encode text) ((tree.mode? path).getD freshMode) =
      .ok replaced) : Wrote tree [⟨path, text⟩] replaced := by
  unfold replaceFile at h
  split at h
  next => simp at h
  next hnul =>
    split at h
    next => simp at h
    next => simp at h
    next target htarget =>
      simp only at h
      split at h
      next => simp at h
      next hslashed =>
        split at h
        next => simp at h
        next hfree =>
          have hlocate := (targets_of_target? htarget).locate (by simpa using hnul)
            (by simpa using hslashed)
          obtain rfl := Except.ok.inj h
          rw [mode?_getD_of_locate hlocate]
          exact wrote_set_file text (by simp) hfree hlocate

/-- What a write has written: its text if it succeeded, and otherwise nothing. -/
def writingOf (path : Path) (text : Text) : Except OsError WriteResult → List Writing
  | .ok _ => [⟨path, text⟩]
  | .error _ => []

theorem wrote_install (tree : FileTree) (path : Path) (text : Text) :
    Wrote tree (writingOf path text (tree.install path (Utf8.encode text)).1)
      (tree.install path (Utf8.encode text)).2 := by
  have hmade := wrote_makeDirectories tree
    ((temporaryDirectory path).ancestors (temporaryDirectory path).length)
  unfold install
  simp only
  split
  next error made heq => simpa [writingOf, heq] using hmade
  next made heq =>
    rw [heq] at hmade
    split
    next error hreplace => simpa [writingOf] using hmade
    next replaced hreplace => simpa [writingOf] using hmade.trans (wrote_of_replaceFile hreplace)

/-- A file that holds the text already counts as written with it. -/
theorem wrote_of_read {tree : FileTree} {path : Path} {text : Text}
    (h : tree.read path = .ok (Utf8.encode text)) : Wrote tree [⟨path, text⟩] tree := by
  obtain ⟨place, mode, hlocate, hnode⟩ := read_eq_ok_iff.mp h
  have hplace := locate_eq_placeOf hlocate
  refine ⟨rfl, fun other => ?_, fun writing hmem => ?_⟩
  · rw [lastText?_singleton, ← hplace]
    split
    next heq =>
      subst heq
      rw [hnode]
      exact ⟨by simp, rfl⟩
    next => exact .inl rfl
  · obtain rfl := List.mem_singleton.mp hmem
    rw [← hplace]
    exact hlocate

/-- Every write is one writing or none. -/
theorem wrote_write (tree : FileTree) (path : Path) (text : Text) :
    Wrote tree (writingOf path text (tree.write path text).1) (tree.write path text).2 := by
  unfold write
  simp only
  split
  next old hread =>
    split
    next hsame => exact wrote_of_read (hsame ▸ hread)
    next => exact wrote_install tree path text
  next => exact wrote_install tree path text

theorem install_ne_unchanged (tree : FileTree) (path : Path) (bytes : Bytes) :
    (tree.install path bytes).1 ≠ .ok .unchanged := by
  unfold install
  intro hsame
  simp only at hsame
  split at hsame
  next => simp at hsame
  next => split at hsame <;> simp at hsame

/-- A write that finds its text in place does nothing. -/
theorem write_of_read {tree : FileTree} {path : Path} {text : Text}
    (h : tree.read path = .ok (Utf8.encode text)) :
    tree.write path text = (.ok .unchanged, tree) := by
  simp [write, h]

theorem write_eq_unchanged_iff {tree : FileTree} {path : Path} {text : Text} :
    (tree.write path text).1 = .ok .unchanged ↔ tree.read path = .ok (Utf8.encode text) := by
  refine ⟨?_, fun h => by rw [write_of_read h]⟩
  intro h
  unfold write at h
  simp only at h
  split at h
  next old hread =>
    split at h
    next hsame => rw [hread, hsame]
    next => exact absurd h (install_ne_unchanged _ _ _)
  next => exact absurd h (install_ne_unchanged _ _ _)

end MemberSplit.FileTree
