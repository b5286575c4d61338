import MemberSplit.FileTree.Replacement
import MemberSplit.Proofs.FileTree.Outcome

/-!
# A write is all or nothing

A write puts its whole text where the path leads, or it changes no file. That holds for every step
at which the file system can refuse to go on: up to the move, all that differs from the tree before
are new directories and the temporary file, and the temporary file is taken away.
-/

namespace MemberSplit.FileTree

section Temporary

variable {tree : FileTree} {place : Place}

theorem putNode_putNode (place : Place) (first second : FileNode)
    (nodes : List (Place × FileNode)) :
    putNode place second (putNode place first nodes) = putNode place second nodes := by
  induction nodes with
  | nil => simp [putNode]
  | cons head rest ih =>
      obtain ⟨other, old⟩ := head
      by_cases h : other = place <;> simp [putNode, h, ih]

@[simp] theorem set_set (tree : FileTree) (place : Place) (first second : FileNode) :
    (tree.set place first).set place second = tree.set place second := by
  simp only [set, putNode_putNode]

/-- What is put at a free place can be taken away again. -/
theorem remove_set (h : tree.IsFree place) (node : FileNode) :
    (tree.set place node).remove place = tree := by
  have hnodes : (putNode place node tree.nodes).filter (fun node => !place.isPrefixOf node.1) =
      tree.nodes := by
    unfold IsFree at h
    generalize tree.nodes = nodes at h
    induction nodes with
    | nil => simp [putNode]
    | cons head rest ih =>
        obtain ⟨other, old⟩ := head
        have hhead : ¬ place <+: other := h _ List.mem_cons_self
        have hne : other ≠ place := fun heq => hhead (heq ▸ List.prefix_refl other)
        have hrest := ih fun node hmem => h node (List.mem_cons_of_mem _ hmem)
        simp [putNode, hne, mt List.isPrefixOf_iff_prefix.mp hhead, hrest]
  simp only [remove, set, hnodes]

theorem node?_of_isFree (h : tree.IsFree place) (hne : place ≠ []) : tree.node? place = none := by
  rw [node?, if_neg (by simpa using hne), List.lookup_eq_none_iff]
  intro node hmem
  rw [bne_iff_ne]
  exact fun heq => h node hmem (heq ▸ List.prefix_refl place)

/-- A file at a free place is on the way of no path, so it is met only where it is. -/
theorem find_set_eq_ok_file_iff (h : tree.IsFree place) (hne : place ≠ []) {path : Path}
    (hother : place ≠ tree.placeOf path) (bytes bytes' : Bytes) (mode mode' : Nat) :
    (tree.set place (.file bytes mode)).find path = .ok (.file bytes' mode') ↔
      tree.find path = .ok (.file bytes' mode') := by
  have hnone := node?_of_isFree h hne
  -- The same directories are in both trees.
  have hdirectory : ∀ other, (tree.set place (.file bytes mode)).node? other = some .directory ↔
      tree.node? other = some .directory := by
    intro other
    rw [node?_set hne]
    split
    next heq => simp [heq, hnone]
    next => rfl
  have hto : KeepsDirectories tree (tree.set place (.file bytes mode)) :=
    ⟨rfl, fun other => (hdirectory other).mpr⟩
  have hfrom : KeepsDirectories (tree.set place (.file bytes mode)) tree :=
    ⟨rfl, fun other => (hdirectory other).mp⟩
  have hlocate : ∀ found, (tree.set place (.file bytes mode)).locate path = .ok found ↔
      tree.locate path = .ok found := fun found => ⟨hfrom.locate, hto.locate⟩
  simp only [find_eq_ok_iff, hlocate]
  refine exists_congr fun found => and_congr_right fun hfound => ?_
  rw [node?_set hne, if_neg]
  rintro rfl
  exact hother (locate_eq_placeOf hfound)

theorem mode?_eq_some_iff {path : Path} {mode : Nat} :
    tree.mode? path = some mode ↔ ∃ bytes, tree.find path = .ok (.file bytes mode) := by
  unfold mode?
  split
  next bytes other h => simp [h]
  next h => simpa using fun bytes => h bytes mode

/-- The permissions that a path's file has do not depend on the temporary file. -/
theorem mode?_set (h : tree.IsFree place) (hne : place ≠ []) {path : Path}
    (hother : place ≠ tree.placeOf path) (bytes : Bytes) (mode : Nat) :
    (tree.set place (.file bytes mode)).mode? path = tree.mode? path := by
  apply Option.ext
  intro kept
  simp only [mode?_eq_some_iff, find_set_eq_ok_file_iff h hne hother]

end Temporary

section Steps

variable {tree : FileTree} {path : Path} {name : Text}

/-- If nothing is refused, the steps come to what replacing the file at once does. -/
theorem replaceThrough_none {temporary : Place} (hfree : tree.IsFree temporary)
    (hne : temporary ≠ []) (hother : temporary ≠ tree.placeOf path) (bytes : Bytes) :
    tree.replaceThrough none temporary path bytes =
      match tree.replaceFile path bytes ((tree.mode? path).getD freshMode) with
      | .error error => (.error error, tree)
      | .ok replaced => (.ok .written, replaced) := by
  cases hreplaced : tree.replaceFile path bytes ((tree.mode? path).getD freshMode) <;>
    simp only [replaceThrough, set_set, remove_set hfree, mode?_set hfree hne hother, hreplaced]

/-- A step that is refused leaves the tree as it was before the temporary file was created. -/
theorem replaceThrough_some {temporary : Place} (hfree : tree.IsFree temporary)
    {refusal : Refusal} (hstep : ∀ missing, refusal.step ≠ .directories missing) (bytes : Bytes) :
    tree.replaceThrough (some refusal) temporary path bytes = (.error refusal.error, tree) := by
  obtain ⟨step, error⟩ := refusal
  cases step with
  | directories missing => exact absurd rfl (hstep missing)
  | creation => rfl
  | filling taken => simp only [replaceThrough, set_set, remove_set hfree]
  | permissions => simp only [replaceThrough, set_set, remove_set hfree]
  | moving => simp only [replaceThrough, set_set, remove_set hfree]

theorem installThrough_none (hname : tree.IsFreshName path name) (bytes : Bytes) :
    tree.installThrough none name path bytes = tree.install path bytes := by
  obtain ⟨hfree, hother⟩ := hname
  have hdirectories : directoriesFor path =
      (temporaryDirectory path).ancestors (temporaryDirectory path).length := rfl
  simp only [installThrough, install, ← hdirectories]
  cases hmade : tree.makeDirectories (directoriesFor path) with
  | mk result made =>
      rw [hmade] at hfree hother
      cases result with
      | error error => rfl
      | ok done => exact replaceThrough_none hfree (by simp [temporaryPlace]) hother bytes

/-- If a step is refused, all that is left are directories. -/
theorem exists_installThrough_some (hname : tree.IsFreshName path name) (refusal : Refusal)
    (bytes : Bytes) :
    ∃ error directories, tree.installThrough (some refusal) name path bytes =
      (.error error, (tree.makeDirectories directories).2) := by
  obtain ⟨hfree, -⟩ := hname
  obtain ⟨step, error⟩ := refusal
  cases step with
  | directories missing => exact ⟨error, _, rfl⟩
  | creation | filling | permissions | moving =>
      cases hmade : tree.makeDirectories (directoriesFor path) with
      | mk result made =>
          rw [hmade] at hfree
          cases result with
          | error failure =>
              exact ⟨failure, directoriesFor path, by simp only [installThrough, hmade]⟩
          | ok done =>
              refine ⟨error, directoriesFor path, ?_⟩
              simp only [installThrough, hmade]
              exact replaceThrough_some hfree (by simp) bytes

theorem writeThrough_of_read {text : Text} (h : tree.read path = .ok (Utf8.encode text))
    (refusal : Option Refusal) (name : Text) :
    tree.writeThrough refusal name path text = (.ok .unchanged, tree) := by
  simp [writeThrough, h]

theorem writeThrough_of_read_ne {text : Text} (h : tree.read path ≠ .ok (Utf8.encode text))
    (refusal : Option Refusal) (name : Text) :
    tree.writeThrough refusal name path text =
      tree.installThrough refusal name path (Utf8.encode text) := by
  unfold writeThrough
  simp only
  split
  next old hread => rw [if_neg fun heq : old = Utf8.encode text => h (heq ▸ hread)]
  next => rfl

theorem write_of_read_ne {text : Text} (h : tree.read path ≠ .ok (Utf8.encode text)) :
    tree.write path text = tree.install path (Utf8.encode text) := by
  unfold write
  simp only
  split
  next old hread => rw [if_neg fun heq : old = Utf8.encode text => h (heq ▸ hread)]
  next => rfl

/-- A write of which no step is refused is a write. -/
theorem writeThrough_none (hname : tree.IsFreshName path name) (text : Text) :
    tree.writeThrough none name path text = tree.write path text := by
  by_cases hread : tree.read path = .ok (Utf8.encode text)
  · rw [writeThrough_of_read hread, write_of_read hread]
  · rw [writeThrough_of_read_ne hread, write_of_read_ne hread, installThrough_none hname]

end Steps

/-- The same file is at the place in both trees, or none is in either. -/
def HasSameFile (tree later : FileTree) (place : Place) : Prop :=
  ∀ bytes mode, later.node? place = some (.file bytes mode) ↔
    tree.node? place = some (.file bytes mode)

/-- What came of a write to a path: the text is there as a whole, or nothing has changed but for new
directories. -/
structure IsAllOrNothing (tree : FileTree) (path : Path) (text : Text)
    (outcome : Except OsError WriteResult × FileTree) : Prop where
  unchanged_iff : outcome.1 = .ok .unchanged ↔ tree.read path = .ok (Utf8.encode text)
  tree_eq_of_unchanged : outcome.1 = .ok .unchanged → outcome.2 = tree
  /-- The file has the permissions of the one that it replaces, or fresh ones. -/
  exists_place_of_written : outcome.1 = .ok .written →
    ∃ place, outcome.2.locate path = .ok place ∧
      outcome.2.node? place = some (.file (Utf8.encode text) (keptMode (tree.node? place))) ∧
      ∀ other ≠ place, HasSameFile tree outcome.2 other
  hasSameFile_of_error : ∀ error, outcome.1 = .error error →
    ∀ place, HasSameFile tree outcome.2 place
  /-- The same write does nothing afterwards. -/
  write_again : outcome.1 = .ok .written →
    outcome.2.write path text = (.ok .unchanged, outcome.2)

section Outcome

variable {tree later : FileTree} {path : Path} {text : Text}

theorem Wrote.hasSameFile {writings : List Writing} (h : Wrote tree writings later) {place : Place}
    (htext : tree.lastText? writings place = none) : HasSameFile tree later place := by
  intro bytes mode
  have hfollows := h.follows place
  rw [htext] at hfollows
  rcases hfollows with hsame | ⟨hbefore, hafter⟩
  · rw [hsame]
  · simp [hbefore, hafter]

/-- One writing or none is all or nothing. -/
theorem Wrote.isAllOrNothing {outcome : Except OsError WriteResult × FileTree}
    (hwrote : Wrote tree (writingOf path text outcome.1) outcome.2)
    (hread : tree.read path = .ok (Utf8.encode text) → outcome = (.ok .unchanged, tree))
    (hunchanged : outcome.1 = .ok .unchanged → tree.read path = .ok (Utf8.encode text)) :
    IsAllOrNothing tree path text outcome := by
  have hplaced : outcome.1 = .ok .written →
      outcome.2.locate path = .ok (tree.placeOf path) ∧
      outcome.2.node? (tree.placeOf path) =
        some (.file (Utf8.encode text) (keptMode (tree.node? (tree.placeOf path)))) := by
    intro hwritten
    rw [hwritten] at hwrote
    have hlast := tree.lastText?_singleton ⟨path, text⟩ (tree.placeOf path)
    rw [if_pos rfl] at hlast
    have hfollows := hwrote.follows (tree.placeOf path)
    rw [writingOf, hlast] at hfollows
    exact ⟨hwrote.locate ⟨path, text⟩ (List.mem_singleton.mpr rfl), hfollows.2⟩
  constructor
  case unchanged_iff => exact ⟨hunchanged, fun h => by rw [hread h]⟩
  case tree_eq_of_unchanged =>
    intro h
    rw [hread (hunchanged h)]
  case exists_place_of_written =>
    intro hwritten
    obtain ⟨hlocate, hnode⟩ := hplaced hwritten
    refine ⟨tree.placeOf path, hlocate, hnode, fun other hother => ?_⟩
    rw [hwritten] at hwrote
    apply hwrote.hasSameFile
    rw [writingOf, lastText?_singleton, if_neg (Ne.symm hother)]
  case hasSameFile_of_error =>
    intro error herror place
    rw [herror] at hwrote
    exact hwrote.hasSameFile rfl
  case write_again =>
    intro hwritten
    obtain ⟨hlocate, hnode⟩ := hplaced hwritten
    exact write_of_read (read_eq_ok_iff.mpr ⟨_, _, hlocate, hnode⟩)

theorem isAllOrNothing_writeThrough_some {name : Text} (hname : tree.IsFreshName path name)
    (refusal : Refusal) :
    IsAllOrNothing tree path text (tree.writeThrough (some refusal) name path text) := by
  by_cases hread : tree.read path = .ok (Utf8.encode text)
  · rw [writeThrough_of_read hread]
    exact (wrote_of_read hread).isAllOrNothing (fun _ => rfl) fun _ => hread
  · obtain ⟨error, directories, hleft⟩ :=
      exists_installThrough_some hname refusal (Utf8.encode text)
    rw [writeThrough_of_read_ne hread, hleft]
    have hmade := tree.wrote_makeDirectories directories
    exact hmade.isAllOrNothing (fun h => absurd h hread) (by simp)

theorem isAllOrNothing_of_write (tree : FileTree) (path : Path) (text : Text) :
    IsAllOrNothing tree path text (tree.write path text) :=
  (tree.wrote_write path text).isAllOrNothing write_of_read write_eq_unchanged_iff.mp

end Outcome

/-- A write is all or nothing, whichever of its steps is refused. -/
theorem isAllOrNothing_write (tree : FileTree) (path : Path) (text : Text) :
    IsAllOrNothing tree path text (tree.write path text) ∧
    ∀ name, tree.IsFreshName path name →
      tree.writeThrough none name path text = tree.write path text ∧
      ∀ refusal, IsAllOrNothing tree path text (tree.writeThrough refusal name path text) := by
  refine ⟨isAllOrNothing_of_write tree path text, fun name hname => ?_⟩
  refine ⟨writeThrough_none hname text, fun refusal => ?_⟩
  cases refusal with
  | none =>
      rw [writeThrough_none hname]
      exact isAllOrNothing_of_write tree path text
  | some refusal => exact isAllOrNothing_writeThrough_some hname refusal

/-- A move that is refused leaves the new directory behind, and no file in it. -/
theorem isAllOrNothing_write_refused_move :
    let tree := (ofWorkingDirectory ["w"]).putFile ["w", "a.cpp"] (Utf8.encode "old") 0o664
    let outcome := tree.writeThrough (some ⟨.moving, .busy⟩) ".tmp" "out/b.cpp" "new"
    tree.IsFreshName "out/b.cpp" ".tmp" ∧ outcome.2 = tree.putDirectory ["w", "out"] ∧
      IsAllOrNothing tree "out/b.cpp" "new" outcome := by
  intro tree outcome
  have hname : tree.IsFreshName "out/b.cpp" ".tmp" := by decide +kernel
  refine ⟨hname, by decide +kernel, ?_⟩
  exact ((isAllOrNothing_write tree "out/b.cpp" "new").2 ".tmp" hname).2 _

end MemberSplit.FileTree
