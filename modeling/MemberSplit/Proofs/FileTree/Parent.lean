import MemberSplit.Proofs.FileTree.Join
import MemberSplit.Proofs.FileTree.Outcome

/-!
# Writing to a file that is there

The directory of a file that can be read is there, so a write to that file makes none. If it fails
all the same, the tree is as it was before.
-/

namespace MemberSplit.FileTree

variable {tree : FileTree} {path : Path}

theorem isDirectory_iff : tree.isDirectory path = true ↔
    ∃ place, tree.locate path = .ok place ∧ tree.node? place = some .directory := by
  rw [← find_eq_ok_iff, isDirectory]
  split
  next h => simp [h]
  next h => simpa using h

theorem walk_append_eq_ok_iff {place last : Place} {first second : List Text} :
    tree.walk place (first ++ second) = .ok last ↔
      ∃ middle, tree.walk place first = .ok middle ∧ tree.walk middle second = .ok last := by
  unfold walk
  rw [List.foldlM_append]
  cases List.foldlM tree.step place first <;> simp [bind, Except.bind]

/-- A walk that is not over goes on from a directory. -/
theorem directory_of_walk {place last : Place} {pieces : List Text} (hne : pieces ≠ [])
    (h : tree.walk place pieces = .ok last) : tree.node? place = some .directory := by
  cases pieces with
  | nil => exact absurd rfl hne
  | cons piece rest =>
      obtain ⟨next, hstep, -⟩ := walk_cons_eq_ok_iff.mp h
      exact (step_eq_ok hstep).1

/-- Pieces that mean nothing lead nowhere. -/
theorem eq_of_walk_fillers {place last : Place} {pieces : List Text}
    (hfillers : ∀ piece ∈ pieces, Path.isFiller piece = true)
    (h : tree.walk place pieces = .ok last) : last = place := by
  rw [walk_eq_foldl h]
  induction pieces with
  | nil => rfl
  | cons piece rest ih =>
      have hstay : advance place piece = place := by
        rw [advance, if_pos (hfillers piece List.mem_cons_self)]
      obtain ⟨next, hstep, hrest⟩ := walk_cons_eq_ok_iff.mp h
      obtain ⟨-, rfl⟩ := step_eq_ok hstep
      rw [hstay] at hrest
      rw [List.foldl_cons, hstay]
      exact ih (fun other hmem => hfillers other (List.mem_cons_of_mem _ hmem)) hrest

/-- A path that can be followed can be followed as far as any of its pieces. -/
theorem exists_locate_front {place : Place} {front back : List Text}
    (hlocate : tree.locate path = .ok place) (hpieces : path.pieces = front ++ back)
    (hne : Text.joinWith ['/'] front ≠ []) :
    ∃ middle, tree.locate (Text.joinWith ['/'] front) = .ok middle ∧
      tree.walk middle back = .ok place := by
  obtain ⟨hnul, -, hshort, hwalk⟩ := locate_eq_ok_iff.mp hlocate
  rw [hpieces] at hwalk
  obtain ⟨middle, hfront, hback⟩ := walk_append_eq_ok_iff.mp hwalk
  have hfull : front ≠ [] := by
    rintro rfl
    exact hne rfl
  have hown : Path.pieces (Text.joinWith ['/'] front) = front := by
    apply Path.pieces_joinWith hfull
    intro piece hmem
    have hpiece : piece ∈ path.pieces := by simp [hpieces, hmem]
    exact Path.slash_not_mem_of_mem_pieces hpiece
  obtain ⟨rest, hrest⟩ : Text.joinWith ['/'] front <+: path := by
    rw [← path.joinWith_pieces, hpieces]
    exact Text.joinWith_prefix ['/'] front back
  refine ⟨middle, locate_eq_ok_iff.mpr ⟨?_, hne, ?_, ?_⟩, hback⟩
  · have hpart : '\x00' ∉ Text.joinWith ['/'] front ++ rest := by
      rw [hrest]
      simpa [Path.holdsNul] using hnul
    have hfirst := fun hmem => hpart (List.mem_append_left rest hmem)
    simpa [Path.holdsNul] using hfirst
  · rw [← hrest, Text.byteLength_append] at hshort
    omega
  · rw [hown, ← tree.startOf_of_ne_nil hne rest, hrest]
    exact hfront

/-- A path of fillers leads to where it starts, if that is a directory. -/
theorem walk_fillers {place : Place} {pieces : List Text}
    (hnode : tree.node? place = some .directory)
    (hfillers : ∀ piece ∈ pieces, Path.isFiller piece = true) :
    tree.walk place pieces = .ok place := by
  induction pieces with
  | nil => rfl
  | cons piece rest ih =>
      refine walk_cons_eq_ok_iff.mpr ⟨place, ?_, ?_⟩
      · rw [step, requireDirectory_eq_ok_iff.mpr hnode]
        simp [hfillers piece List.mem_cons_self]
      · exact ih fun other hmem => hfillers other (List.mem_cons_of_mem _ hmem)

/-- The directory of a file that can be read is there. -/
theorem isDirectory_temporaryDirectory {bytes : Bytes} (h : tree.read path = .ok bytes) :
    tree.isDirectory (temporaryDirectory path) = true := by
  obtain ⟨place, mode, hlocate, hnode⟩ := read_eq_ok_iff.mp h
  obtain ⟨-, hne, -, hwalk⟩ := locate_eq_ok_iff.mp hlocate
  unfold temporaryDirectory
  cases hparent : path.parent? with
  | none =>
      obtain ⟨habsolute, hfillers⟩ := Path.isFiller_of_parent?_eq_none hparent hne
      have hroot := eq_of_walk_fillers hfillers hwalk
      rw [startOf, if_pos habsolute] at hroot
      rw [hroot] at hnode
      cases hnode
  | some parent =>
      obtain ⟨rfl, -, hrelative⟩ | rfl | ⟨hfull, front, back, hpieces, hback, rfl⟩ :=
        Path.exists_front_of_parent? hparent
      · have hstart := directory_of_walk path.pieces_ne_nil hwalk
        rw [startOf, if_neg (by simp [hrelative])] at hstart
        refine isDirectory_iff.mpr ⟨tree.workingDirectory, ?_, hstart⟩
        refine locate_eq_ok_iff.mpr ⟨rfl, by decide, by decide, ?_⟩
        exact walk_fillers hstart (by decide)
      · refine isDirectory_iff.mpr ⟨[], ?_, rfl⟩
        refine locate_eq_ok_iff.mpr ⟨rfl, by decide, by decide, ?_⟩
        exact walk_fillers rfl (by decide)
      · obtain ⟨middle, hlocate', hrest⟩ := exists_locate_front hlocate hpieces hfull
        have hdirectory := isDirectory_iff.mpr ⟨middle, hlocate', directory_of_walk hback hrest⟩
        cases hfront : Text.joinWith ['/'] front with
        | nil => exact absurd hfront hfull
        | cons c others => rwa [hfront] at hdirectory

/-- What the last name of a directory's path names is there. -/
theorem exists_target?_of_isDirectory (h : tree.isDirectory path = true) :
    ∃ found, tree.target? path = .ok found ∧
      ∀ target ∈ found, (tree.node? (target.directory ++ [target.name])).isSome = true := by
  obtain ⟨place, hlocate, hnode⟩ := isDirectory_iff.mp h
  obtain ⟨-, hne, hshort, hwalk⟩ := locate_eq_ok_iff.mp hlocate
  unfold target?
  rw [if_neg (by simpa using hne), if_neg (Nat.not_lt.mpr hshort)]
  simp only
  cases hdrop : path.pieces.reverse.dropWhile List.isEmpty with
  | nil => exact ⟨none, rfl, by simp⟩
  | cons last before =>
      have hpieces : path.pieces =
          before.reverse ++ last :: (path.pieces.reverse.takeWhile List.isEmpty).reverse := by
        rw [← List.singleton_append, ← List.append_assoc, ← List.reverse_cons, ← hdrop,
          ← List.reverse_append, List.takeWhile_append_dropWhile, List.reverse_reverse]
      rw [hpieces] at hwalk
      obtain ⟨directory, hbefore, hafter⟩ := walk_append_eq_ok_iff.mp hwalk
      obtain ⟨next, hstep, hrest⟩ := walk_cons_eq_ok_iff.mp hafter
      obtain ⟨hdirectory, hnext⟩ := step_eq_ok hstep
      -- Behind the last name there are only slashes.
      have hplace : place = next := by
        apply eq_of_walk_fillers _ hrest
        intro piece hmem
        have hempty := List.mem_takeWhile_imp (List.mem_reverse.mp hmem)
        simp [Path.isFiller, hempty]
      have hfull : last.isEmpty = false := by
        have hhead := List.head?_dropWhile_not List.isEmpty path.pieces.reverse
        simpa [hdrop] using hhead
      simp only [hbefore, Except.bind, requireDirectory_eq_ok_iff.mpr hdirectory]
      split
      next => exact ⟨none, rfl, by simp⟩
      next hdots =>
        simp only [Bool.or_eq_true, decide_eq_true_eq, not_or] at hdots
        have hfiller : Path.isFiller last = false := by
          simp only [Path.isFiller, hfull, hdots.1, decide_false, Bool.or_self]
        split
        next hlong =>
          simp only [step, requireDirectory_eq_ok_iff.mpr hdirectory, hfiller, hdots.2, hlong,
            Bool.false_eq_true, if_false, if_true, reduceCtorEq] at hstep
        next =>
          refine ⟨_, rfl, fun target hmem => ?_⟩
          obtain rfl := Option.mem_some_iff.mp hmem
          rw [advance, if_neg (by simp [hfiller]), if_neg hdots.2] at hnext
          rw [← hnext, ← hplace, hnode]
          rfl

/-- A directory that is there is not made again. -/
theorem makeDirectory_eq_fileExists (h : tree.isDirectory path = true) :
    tree.makeDirectory path = .error .fileExists := by
  obtain ⟨place, hlocate, -⟩ := isDirectory_iff.mp h
  obtain ⟨hnul, -⟩ := locate_eq_ok_iff.mp hlocate
  obtain ⟨found, htarget, hthere⟩ := exists_target?_of_isDirectory h
  unfold makeDirectory
  rw [if_neg (by simp [hnul]), htarget]
  cases found with
  | none => rfl
  | some target =>
      simp only
      rw [if_pos (hthere target rfl)]

theorem makeDirectories_eq_self (h : tree.isDirectory path = true) (bound : Nat) :
    tree.makeDirectories (path.ancestors bound) = (.ok (), tree) := by
  cases bound with
  | zero => rfl
  | succ bound =>
      rw [Path.ancestors]
      split
      next => rfl
      next => simp [makeDirectories, makeDirectory_eq_fileExists h, h]

/-- A write to a file that could be read changes nothing if it fails. -/
theorem write_eq_self_of_error {bytes : Bytes} {text : Text} {error : OsError}
    (hread : tree.read path = .ok bytes) (h : (tree.write path text).1 = .error error) :
    (tree.write path text).2 = tree := by
  have hmade := makeDirectories_eq_self (isDirectory_temporaryDirectory hread)
    (temporaryDirectory path).length
  simp only [write, hread, install, hmade] at h ⊢
  split
  next => rfl
  next hother =>
    rw [if_neg hother] at h
    split at h
    next => rfl
    next => cases h

end MemberSplit.FileTree
