import Mathlib.Data.List.Nodup
import MemberSplit.Proofs.FileTree.Place
import MemberSplit.Proofs.Text.Utf8

/-!
# What writing does to a file tree

A list of writings decides what a tree holds afterwards. The place of a writing holds the text that
was written there last, with the permissions that the file had before or with fresh ones; every
other place is as it was, but for new directories where there was nothing.
-/

namespace MemberSplit

/-- A text that was written to a path. -/
structure Writing where
  path : Path
  text : Text
  deriving DecidableEq, Repr

namespace FileTree

/-- The text that was written last to a place. -/
def lastText? (tree : FileTree) (writings : List Writing) (place : Place) : Option Text :=
  (writings.filter fun writing => tree.placeOf writing.path = place).getLast?.map Writing.text

/-- The permissions of a file that is written to a place, from what was there before. -/
def keptMode : Option FileNode → Nat
  | some (.file _ mode) => mode
  | _ => freshMode

/-- What can be at a place afterwards, if `text?` is what was written last to it. -/
def Follows (before : Option FileNode) (text? : Option Text) (after : Option FileNode) : Prop :=
  match text? with
  | some text => before ≠ some .directory ∧
      after = some (.file (Utf8.encode text) (keptMode before))
  | none => after = before ∨ before = none ∧ after = some .directory

/-- The later tree is the earlier one after some writings. -/
structure Wrote (tree : FileTree) (writings : List Writing) (later : FileTree) : Prop where
  workingDirectory_eq : later.workingDirectory = tree.workingDirectory
  follows : ∀ place,
    Follows (tree.node? place) (tree.lastText? writings place) (later.node? place)
  /-- The paths that were written to lead to their places. -/
  locate : ∀ writing ∈ writings, later.locate writing.path = .ok (tree.placeOf writing.path)

/-- The file at a path is UTF-8, and the text is part of it. -/
def Holds (tree : FileTree) (path : Path) (part : Text) : Prop :=
  ∃ text, tree.read path = .ok (Utf8.encode text) ∧ part <:+: text

theorem holds_iff_of_read {tree : FileTree} {path : Path} {text part : Text}
    (hread : tree.read path = .ok (Utf8.encode text)) : tree.Holds path part ↔ part <:+: text := by
  refine ⟨?_, fun hpart => ⟨text, hread, hpart⟩⟩
  rintro ⟨other, hother, hpart⟩
  have hsame := Except.ok.inj (hread.symm.trans hother)
  rwa [Utf8.encode_injective hsame]

theorem holds_congr {tree later : FileTree} {path : Path} {part : Text}
    (hfind : later.find path = tree.find path) : later.Holds path part ↔ tree.Holds path part := by
  simp only [Holds, read, hfind]

theorem lastText?_singleton (tree : FileTree) (writing : Writing) (place : Place) :
    tree.lastText? [writing] place =
      if tree.placeOf writing.path = place then some writing.text else none := by
  by_cases h : tree.placeOf writing.path = place <;> simp [lastText?, h]

/-- Of two lists of writings the later one decides, if it has something for the place. -/
theorem lastText?_append (tree : FileTree) (first second : List Writing) (place : Place) :
    tree.lastText? (first ++ second) place =
      (tree.lastText? second place).or (tree.lastText? first place) := by
  simp only [lastText?, List.filter_append, List.getLast?_append, Option.map_or]

theorem lastText?_congr {tree later : FileTree}
    (h : later.workingDirectory = tree.workingDirectory) (writings : List Writing)
    (place : Place) : later.lastText? writings place = tree.lastText? writings place := by
  simp only [lastText?, placeOf_congr h]

theorem lastText?_eq_none_iff {tree : FileTree} {writings : List Writing} {place : Place} :
    tree.lastText? writings place = none ↔
      ∀ writing ∈ writings, tree.placeOf writing.path ≠ place := by
  simp [lastText?]

theorem exists_mem_of_lastText?_eq_some {tree : FileTree} {writings : List Writing}
    {place : Place} {text : Text} (h : tree.lastText? writings place = some text) :
    ∃ writing ∈ writings, tree.placeOf writing.path = place ∧ writing.text = text := by
  obtain ⟨writing, hlast, htext⟩ := Option.map_eq_some_iff.mp h
  obtain ⟨hmem, hplace⟩ := List.mem_filter.mp (List.mem_of_getLast? hlast)
  exact ⟨writing, hmem, of_decide_eq_true hplace, htext⟩

/-- Writings to different places are each the last one at their place. -/
theorem lastText?_eq_of_nodup {tree : FileTree} {writings : List Writing}
    (hnodup : (writings.map fun writing => tree.placeOf writing.path).Nodup)
    {writing : Writing} (hmem : writing ∈ writings) :
    tree.lastText? writings (tree.placeOf writing.path) = some writing.text := by
  cases htext : tree.lastText? writings (tree.placeOf writing.path) with
  | none => exact absurd rfl (lastText?_eq_none_iff.mp htext writing hmem)
  | some text =>
      obtain ⟨other, hother, hplace, rfl⟩ := exists_mem_of_lastText?_eq_some htext
      rw [List.inj_on_of_nodup_map hnodup hother hmem hplace]

theorem Follows.trans {before middle after : Option FileNode} {first second : Option Text}
    (hfirst : Follows before first middle) (hsecond : Follows middle second after) :
    Follows before (second.or first) after := by
  cases second with
  | none =>
      cases first with
      | none =>
          simp only [Follows, Option.or] at *
          rcases hfirst with rfl | ⟨rfl, rfl⟩
          · exact hsecond
          · exact hsecond.elim (fun h => .inr ⟨rfl, h⟩) fun h => absurd h.1 (by simp)
      | some text =>
          obtain ⟨hbefore, rfl⟩ := hfirst
          exact ⟨hbefore, hsecond.resolve_right fun h => absurd h.1 (by simp)⟩
  | some text =>
      -- The permissions are those of the first file at the place, whichever text came between.
      obtain ⟨hmiddle, rfl⟩ := hsecond
      cases first with
      | none =>
          rcases hfirst with rfl | ⟨-, rfl⟩
          · exact ⟨hmiddle, rfl⟩
          · exact absurd rfl hmiddle
      | some earlier =>
          obtain ⟨hbefore, rfl⟩ := hfirst
          exact ⟨hbefore, rfl⟩

namespace Wrote

variable {tree middle later : FileTree} {first second writings : List Writing}

theorem refl (tree : FileTree) : Wrote tree [] tree :=
  ⟨rfl, fun _ => .inl rfl, by simp⟩

theorem keepsDirectories (h : Wrote tree writings later) : KeepsDirectories tree later := by
  refine ⟨h.workingDirectory_eq, fun place hplace => ?_⟩
  have hfollows := h.follows place
  cases htext : tree.lastText? writings place with
  | none =>
      rw [htext, hplace] at hfollows
      exact hfollows.resolve_right fun h => absurd h.1 (by simp)
  | some text =>
      rw [htext, hplace] at hfollows
      exact absurd rfl hfollows.1

/-- What was written first and what was written then, taken together. -/
theorem trans (hfirst : Wrote tree first middle) (hsecond : Wrote middle second later) :
    Wrote tree (first ++ second) later := by
  have hdirectory := hfirst.workingDirectory_eq
  refine ⟨hsecond.workingDirectory_eq.trans hdirectory, fun place => ?_, fun writing hmem => ?_⟩
  · rw [lastText?_append, ← lastText?_congr hdirectory second]
    exact (hfirst.follows place).trans (hsecond.follows place)
  · rcases List.mem_append.mp hmem with hmem | hmem
    · exact hsecond.keepsDirectories.locate (hfirst.locate writing hmem)
    · rw [← placeOf_congr hdirectory]
      exact hsecond.locate writing hmem

/-- A path that was written to holds the text that was written last to its place. -/
theorem exists_read (h : Wrote tree writings later) {writing : Writing}
    (hmem : writing ∈ writings) :
    ∃ text, tree.lastText? writings (tree.placeOf writing.path) = some text ∧
      later.read writing.path = .ok (Utf8.encode text) := by
  cases htext : tree.lastText? writings (tree.placeOf writing.path) with
  | none => exact absurd rfl (lastText?_eq_none_iff.mp htext writing hmem)
  | some text =>
      have hfollows := h.follows (tree.placeOf writing.path)
      rw [htext] at hfollows
      exact ⟨text, rfl, read_eq_ok_iff.mpr ⟨_, _, h.locate writing hmem, hfollows.2⟩⟩

/-- A file that was there before is as it was, if nothing was written to its place. -/
theorem find_eq_of_lastText?_eq_none (h : Wrote tree writings later) {path : Path}
    {bytes : Bytes} (hread : tree.read path = .ok bytes)
    (htext : tree.lastText? writings (tree.placeOf path) = none) :
    later.find path = tree.find path := by
  obtain ⟨place, mode, hlocate, hnode⟩ := read_eq_ok_iff.mp hread
  obtain rfl := locate_eq_placeOf hlocate
  have hfollows := h.follows (tree.placeOf path)
  rw [htext] at hfollows
  have hsame := hfollows.resolve_right fun hnew => absurd hnew.1 (by simp [hnode])
  rw [find_of_locate hlocate, find_of_locate (h.keepsDirectories.locate hlocate), hsame]

/-- A file that was there before keeps its permissions when it is written. -/
theorem find_eq_of_lastText?_eq_some (h : Wrote tree writings later) {path : Path} {text : Text}
    {bytes : Bytes} {mode : Nat} (hfind : tree.find path = .ok (.file bytes mode))
    (htext : tree.lastText? writings (tree.placeOf path) = some text) :
    later.find path = .ok (.file (Utf8.encode text) mode) := by
  obtain ⟨place, hlocate, hnode⟩ := find_eq_ok_iff.mp hfind
  obtain rfl := locate_eq_placeOf hlocate
  have hfollows := h.follows (tree.placeOf path)
  rw [htext, hnode] at hfollows
  rw [find_of_locate (h.keepsDirectories.locate hlocate), hfollows.2]
  rfl

/-- What a file holds after some writings: the last text for its place, or what it held. -/
theorem read_eq (h : Wrote tree writings later) {path : Path} {bytes : Bytes}
    (hread : tree.read path = .ok bytes) :
    later.read path =
      .ok (((tree.lastText? writings (tree.placeOf path)).map Utf8.encode).getD bytes) := by
  cases htext : tree.lastText? writings (tree.placeOf path) with
  | none =>
      rw [read, h.find_eq_of_lastText?_eq_none hread htext]
      exact hread
  | some text =>
      obtain ⟨mode, hfind⟩ := read_eq_ok_iff_find.mp hread
      exact read_eq_ok_iff_find.mpr ⟨mode, h.find_eq_of_lastText?_eq_some hfind htext⟩

theorem mode?_eq (h : Wrote tree writings later) {path : Path} {bytes : Bytes}
    (hread : tree.read path = .ok bytes) : later.mode? path = tree.mode? path := by
  obtain ⟨mode, hfind⟩ := read_eq_ok_iff_find.mp hread
  cases htext : tree.lastText? writings (tree.placeOf path) with
  | none => simp only [mode?, h.find_eq_of_lastText?_eq_none hread htext]
  | some text => simp only [mode?, h.find_eq_of_lastText?_eq_some hfind htext, hfind]

/-- A file is as it was exactly if what was written last to its place is what it held. -/
theorem find_eq_iff (h : Wrote tree writings later) {path : Path} {bytes : Bytes}
    (hread : tree.read path = .ok bytes) :
    later.find path = tree.find path ↔
      ∀ text, tree.lastText? writings (tree.placeOf path) = some text →
        bytes = Utf8.encode text := by
  cases htext : tree.lastText? writings (tree.placeOf path) with
  | none => simp [h.find_eq_of_lastText?_eq_none hread htext]
  | some text =>
      obtain ⟨mode, hfind⟩ := read_eq_ok_iff_find.mp hread
      rw [h.find_eq_of_lastText?_eq_some hfind htext, hfind]
      simp [eq_comm]

/-- A path that was written to holds a text exactly if what was written last to its place does. -/
theorem holds_iff_of_mem (h : Wrote tree writings later) {writing : Writing}
    (hmem : writing ∈ writings) {part : Text} :
    later.Holds writing.path part ↔
      ∃ text, tree.lastText? writings (tree.placeOf writing.path) = some text ∧
        part <:+: text := by
  obtain ⟨text, htext, hread⟩ := h.exists_read hmem
  simp [holds_iff_of_read hread, htext]

/-- What a file held before it still holds, unless what was written last to its place does not. -/
theorem holds_iff_of_holds (h : Wrote tree writings later) {path : Path} {part : Text}
    (hholds : tree.Holds path part) :
    later.Holds path part ↔
      ∀ text, tree.lastText? writings (tree.placeOf path) = some text → part <:+: text := by
  obtain ⟨old, hread, -⟩ := id hholds
  cases htext : tree.lastText? writings (tree.placeOf path) with
  | none => simp [holds_congr (h.find_eq_of_lastText?_eq_none hread htext), hholds]
  | some text =>
      obtain ⟨mode, hfind⟩ := read_eq_ok_iff_find.mp hread
      have hlater := read_eq_ok_iff_find.mpr ⟨mode, h.find_eq_of_lastText?_eq_some hfind htext⟩
      simp [holds_iff_of_read hlater]

end Wrote

end FileTree

end MemberSplit
