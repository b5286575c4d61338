import MemberSplit.Proofs.FileTree.Appending
import MemberSplit.Proofs.Run.Stored

/-!
# A second run after an edit

An input that was replaced can be added to and be split again. The second run plans from its input
alone and writes each of its files as a whole, so what the first run has left in a file stays there
unless the second run writes to that place; and then it stays only as part of the new text.
-/

namespace MemberSplit

theorem Utf8.infix_encode {part text : Text} (h : part <:+: text) :
    encode part <:+: encode text := by
  obtain ⟨before, after, rfl⟩ := h
  refine ⟨encode before, encode after, ?_⟩
  simp [encode]

/-- The contents of a file, or nothing. -/
def FileNode.bytes : FileNode → Bytes
  | .directory => []
  | .file bytes _ => bytes

namespace FileTree

/-- What a path holds is part of the contents of some file. -/
theorem Holds.exists_node {tree : FileTree} {path : Path} {part : Text}
    (h : tree.Holds path part) :
    ∃ node ∈ tree.nodes, Utf8.encode part <:+: node.2.bytes := by
  obtain ⟨text, hread, hpart⟩ := h
  obtain ⟨place, mode, -, hnode⟩ := read_eq_ok_iff.mp hread
  refine ⟨(place, .file (Utf8.encode text) mode), ?_, Utf8.infix_encode hpart⟩
  unfold node? at hnode
  split at hnode
  next => simp at hnode
  next =>
    obtain ⟨before, after, hnodes, -⟩ := List.lookup_eq_some_iff.mp hnode
    rw [hnodes]
    simp

/-- What a file of the first run holds after that run, it holds after the second run exactly if
the second run writes nothing to its place or a text that has it. -/
theorem holds_iff_of_second_run {tree : FileTree} {job : Job} {more : Text}
    (hfirst : (tree.run job).inputOutcome? = some .replaced)
    (hsecond : (((tree.run job).tree.append job.input more).run job).inputOutcome? =
      some .replaced)
    (hforce : job.force = false) :
    ∃ first second, Plan.ofJob tree.read job = .ok first ∧
      Plan.ofJob ((tree.run job).tree.append job.input more).read job = .ok second ∧
      ((first.writings.map fun writing => tree.placeOf writing.path).Nodup →
        first.Stored (tree.run job).tree) ∧
      ∀ file ∈ first.files, ∀ definition ∈ file.destination.definitions,
        (tree.run job).tree.Holds file.path definition.text →
          ((((tree.run job).tree.append job.input more).run job).tree.Holds file.path
              definition.text ↔
            ∀ text, tree.lastText? second.writings (tree.placeOf file.path) = some text →
              definition.text <:+: text) := by
  obtain ⟨first, hplan, hwrote⟩ := wrote_of_replaced hforce hfirst
  obtain ⟨second, hplan', hwrote'⟩ := wrote_of_replaced hforce hsecond
  have hdirectory : ((tree.run job).tree.append job.input more).workingDirectory =
      tree.workingDirectory :=
    (keepsDirectories_append _ _ _).workingDirectory_eq.trans hwrote.workingDirectory_eq
  refine ⟨first, second, hplan, hplan', stored_of_nodup hwrote, ?_⟩
  intro file _ definition _ hholds
  have hedited := hholds.append job.input more
  rw [hwrote'.holds_iff_of_holds hedited, placeOf_congr hdirectory, lastText?_congr hdirectory]

/-- A second run that writes to other files leaves those of the first run alone. -/
theorem holds_iff_of_second_run_other_group :
    let tree := ofFile "Foo.cpp" "void Foo::a() {}\n"
    let job : Job := { input := "Foo.cpp" }
    let edited := (tree.run job).tree.append job.input "void Foo::visit(const Bar& bar) {}\n"
    (tree.run job).inputOutcome? = some .replaced ∧
      (edited.run job).inputOutcome? = some .replaced ∧
      ∃ first, Plan.ofJob tree.read job = .ok first ∧ first.definitions ≠ [] ∧
        first.Stored (edited.run job).tree := by
  intro tree job edited
  have hfirst : (tree.run job).inputOutcome? = some .replaced := by decide +kernel
  have hsecond : (edited.run job).inputOutcome? = some .replaced := by decide +kernel
  obtain ⟨first, second, hplan, hplan', hstored, hheld⟩ :=
    holds_iff_of_second_run hfirst hsecond rfl
  have hfacts : ∀ first ∈ (Plan.ofJob tree.read job).toOption,
      ∀ second ∈ (Plan.ofJob edited.read job).toOption,
        first.definitions ≠ [] ∧
        (first.writings.map fun writing => tree.placeOf writing.path).Nodup ∧
        ∀ file ∈ first.files,
          tree.lastText? second.writings (tree.placeOf file.path) = none := by
    decide +kernel
  obtain ⟨hne, hnodup, hnone⟩ := hfacts first (by rw [hplan]; rfl) second (by rw [hplan']; rfl)
  refine ⟨hfirst, hsecond, first, hplan, hne, ?_⟩
  intro file hfile definition hdefinition
  apply (hheld file hfile definition hdefinition (hstored hnodup file hfile definition
    hdefinition)).mpr
  intro text htext
  simp [hnone file hfile] at htext

/-- A second run that writes to a file of the first run replaces it as a whole: what the first run
had moved there is in no file any more. -/
theorem exists_lost_by_second_run :
    let tree := ofFile "Foo.cpp" "void Foo::a() {}\n"
    let job : Job := { input := "Foo.cpp" }
    let edited := (tree.run job).tree.append job.input "void Foo::b() {}\n"
    (tree.run job).inputOutcome? = some .replaced ∧
      (edited.run job).inputOutcome? = some .replaced ∧
      ∃ first, Plan.ofJob tree.read job = .ok first ∧
        ∃ file ∈ first.files, ∃ definition ∈ file.destination.definitions,
          (tree.run job).tree.Holds file.path definition.text ∧
            ∀ path, ¬ (edited.run job).tree.Holds path definition.text := by
  intro tree job edited
  have hfirst : (tree.run job).inputOutcome? = some .replaced := by decide +kernel
  have hsecond : (edited.run job).inputOutcome? = some .replaced := by decide +kernel
  obtain ⟨first, hplan, hwrote⟩ := wrote_of_replaced rfl hfirst
  have hfacts : ∀ first ∈ (Plan.ofJob tree.read job).toOption,
      (first.writings.map fun writing => tree.placeOf writing.path).Nodup ∧
      ∃ file ∈ first.files, ∃ definition ∈ file.destination.definitions,
        ∀ node ∈ (edited.run job).tree.nodes,
          ¬ Utf8.encode definition.text <:+: node.2.bytes := by
    decide +kernel
  obtain ⟨hnodup, file, hfile, definition, hdefinition, hnowhere⟩ :=
    hfacts first (by rw [hplan]; rfl)
  refine ⟨hfirst, hsecond, first, hplan, file, hfile, definition, hdefinition,
    stored_of_nodup hwrote hnodup file hfile definition hdefinition, ?_⟩
  intro path hholds
  obtain ⟨node, hmem, hpart⟩ := hholds.exists_node
  exact hnowhere node hmem hpart

end FileTree

end MemberSplit
