import MemberSplit.Proofs.Destination.Location

/-!
# References lead to the files

A file is where the output directory and its path say, and the input refers to it by a path of its
own, which is written anew from the components of both. Seen from the directory of the input, that
path goes through the same components as the file's.
-/

namespace MemberSplit

namespace Path

/-- The components of a path without the current directory. -/
def steps (path : Path) : List Component :=
  path.components.filter (· ≠ .current)

theorem component_ne_current {piece : Text} (h : isFiller piece = false) :
    component piece ≠ .current := by
  intro hcurrent
  have hpart := referencePart?_component h
  rw [hcurrent] at hpart
  cases hpart

/-- A path goes through its names, from the root on if it is absolute. -/
theorem steps_eq (path : Path) :
    path.steps = (if path.isAbsolute then [.root] else []) ++ path.names.map component := by
  have hkept : ∀ rest : List Text,
      ((rest.filter fun piece => !isFiller piece).map component).filter (· ≠ .current) =
        (rest.filter fun piece => !isFiller piece).map component := by
    intro rest
    refine List.filter_eq_self.mpr fun part hpart => ?_
    obtain ⟨piece, hpiece, rfl⟩ := List.mem_map.mp hpart
    have hfull : isFiller piece = false := by simpa using (List.mem_filter.mp hpiece).2
    simpa using component_ne_current hfull
  unfold steps components names
  split
  next hnone => exact absurd hnone path.pieces_ne_nil
  next first rest hpieces =>
    rw [isAbsolute_eq hpieces, List.filter_append, hkept, hpieces]
    cases first with
    | nil =>
        have hempty : path.isEmpty = rest.isEmpty := by
          rw [← joinWith_pieces path, hpieces]
          cases rest <;> rfl
        rw [hempty]
        cases rest <;> rfl
    | cons c others =>
        cases hfiller : isFiller (c :: others) with
        | true =>
            have hdot : c :: others = "." := by simpa [isFiller] using hfiller
            simp [hdot, component, isFiller]
        | false => simp [hfiller, component_ne_current hfiller]

theorem names_join (base : Path) {path : Path} (hrelative : path.isAbsolute = false) :
    (base.join path).names = base.names ++ path.names := by
  simp only [join, hrelative, Bool.false_eq_true, if_false]
  split
  next hbase =>
    rcases Bool.or_eq_true_iff.mp hbase with hempty | hslash
    · rw [List.isEmpty_iff.mp hempty]
      rfl
    · -- The slash at the end stands for one more piece, an empty one.
      obtain ⟨front, rfl⟩ := List.getLast?_eq_some_iff.mp (of_decide_eq_true hslash)
      rw [List.append_assoc, List.singleton_append, names, names, names, pieces_append_slash,
        pieces_append_slash, List.filter_append, List.filter_append]
      simp [pieces, Text.splitBy, isFiller]
  next => rw [names, pieces_append_slash, List.filter_append]; rfl

theorem isAbsolute_join (base : Path) {path : Path} (hrelative : path.isAbsolute = false) :
    (base.join path).isAbsolute = base.isAbsolute := by
  simp only [join, hrelative, Bool.false_eq_true, if_false]
  cases base with
  | nil => exact hrelative
  | cons c rest => split <;> rfl

/-- To go to a relative path from a directory is to go to the directory first. -/
theorem steps_join (base : Path) {path : Path} (hrelative : path.isAbsolute = false) :
    (base.join path).steps = base.steps ++ path.steps := by
  rw [steps_eq, steps_eq base, steps_eq path, isAbsolute_join base hrelative,
    names_join base hrelative, hrelative]
  simp

/-- Relative paths lead to different files from one directory. -/
theorem join_injective {base first second : Path} (hfirst : first.isAbsolute = false)
    (hsecond : second.isAbsolute = false) (h : base.join first = base.join second) :
    first = second := by
  simp only [join, hfirst, hsecond, Bool.false_eq_true, if_false] at h
  split at h
  next => exact List.append_cancel_left h
  next => exact (List.cons.inj (List.append_cancel_left h)).2

/-- The parts of a path in a reference: its names, behind an empty one for the root. -/
theorem referenceParts_eq (path : Path) :
    path.components.filterMap Location.referencePart? =
      (if path.isAbsolute then [[]] else []) ++ path.names := by
  have hsteps : path.components.filterMap Location.referencePart? =
      path.steps.filterMap Location.referencePart? := by
    rw [steps, List.filterMap_filter]
    refine List.filterMap_congr fun part _ => ?_
    cases part <;> rfl
  rw [hsteps, steps_eq, List.filterMap_append, filterMap_referencePart?_names]
  cases path.isAbsolute <;> rfl

theorem names_ne_nil_of_tidy {path : Path} (htidy : FileNaming.tidy path = path)
    (hne : path ≠ []) : path.names ≠ [] := by
  intro hnames
  apply hne
  rw [← htidy]
  exact congrArg (Text.joinWith ['/']) hnames

end Path

namespace Location

/-- Where a path leads that is written in the input: from the directory of the input on. -/
def resolve (input path : Path) : Path :=
  match input.parent? with
  | some parent => parent.join path
  | none => path

variable {path : Path}

theorem outputBase_eq_resolve (input directory : Path) :
    outputBase input directory = resolve input directory := by
  unfold outputBase resolve
  split
  next habsolute => cases input.parent? <;> simp [Path.join, habsolute]
  next => rfl

/-- The input refers to a file by the names of the output directory and of the file. -/
theorem pieces_pathFromInput (directory : Path) (htidy : FileNaming.tidy path = path)
    (hne : path ≠ []) :
    (pathFromInput directory path).pieces =
      (if directory.isAbsolute then [[]] else []) ++ (directory.names ++ path.names) := by
  have hparts : (directory.components ++ path.components).filterMap referencePart? =
      (if directory.isAbsolute then [[]] else []) ++ (directory.names ++ path.names) := by
    rw [List.filterMap_append, Path.referenceParts_eq, Path.filterMap_referencePart? htidy,
      List.append_assoc]
  have hslash : ∀ part ∈ (directory.components ++ path.components).filterMap referencePart?,
      '/' ∉ part := by
    intro part hmem
    rw [List.filterMap_append] at hmem
    rcases List.mem_append.mp hmem with hdirectory | hpath
    · exact Path.slash_not_mem_referenceParts hdirectory
    · exact Path.slash_not_mem_referenceParts hpath
  have hsome : (directory.components ++ path.components).filterMap referencePart? ≠ [] := by
    simp [hparts, Path.names_ne_nil_of_tidy htidy hne]
  rw [pathFromInput, Path.pieces_joinWith hsome hslash, hparts]

theorem names_pathFromInput (directory : Path) (htidy : FileNaming.tidy path = path)
    (hne : path ≠ []) :
    (pathFromInput directory path).names = directory.names ++ path.names := by
  have hfull : ∀ path : Path, path.names.filter (fun piece => !Path.isFiller piece) = path.names :=
    fun path => List.filter_eq_self.mpr fun piece hmem => by
      simp [Path.isFiller_of_mem_names hmem]
  rw [Path.names, pieces_pathFromInput directory htidy hne, List.filter_append, List.filter_append,
    hfull directory, hfull path]
  cases directory.isAbsolute <;> rfl

theorem isAbsolute_pathFromInput (directory : Path) (htidy : FileNaming.tidy path = path)
    (hne : path ≠ []) :
    (pathFromInput directory path).isAbsolute = directory.isAbsolute := by
  have hpieces := pieces_pathFromInput directory htidy hne
  cases habsolute : directory.isAbsolute with
  | true =>
      rw [habsolute] at hpieces
      have hsome := Path.names_ne_nil_of_tidy htidy hne
      rw [Path.isAbsolute_eq hpieces]
      simp [hsome]
  | false =>
      rw [habsolute] at hpieces
      cases hnames : directory.names ++ path.names with
      | nil => simp [Path.names_ne_nil_of_tidy htidy hne] at hnames
      | cons first rest =>
          have hmem : first ∈ directory.names ++ path.names := by simp [hnames]
          have hfull : Path.isFiller first = false := by
            rcases List.mem_append.mp hmem with h | h <;> exact Path.isFiller_of_mem_names h
          have hstart : first.isEmpty = false := (Bool.or_eq_false_iff.mp hfull).1
          rw [hnames] at hpieces
          rw [Path.isAbsolute_eq hpieces, hstart]
          rfl

theorem steps_pathFromInput (directory : Path) (htidy : FileNaming.tidy path = path)
    (hne : path ≠ []) :
    (pathFromInput directory path).steps = directory.steps ++ path.steps := by
  have hrelative : path.isAbsolute = false := htidy ▸ Path.isAbsolute_tidy path
  rw [Path.steps_eq, Path.steps_eq directory, Path.steps_eq path,
    isAbsolute_pathFromInput directory htidy hne, names_pathFromInput directory htidy hne,
    hrelative]
  simp

/-- A path that is written in the input starts where the paths of files in a directory start, if
both are absolute or both relative. -/
theorem exists_steps_resolve (input : Path) {directory written : Path}
    (hrelative : path.isAbsolute = false) (hwritten : written.isAbsolute = directory.isAbsolute) :
    ∃ front, (resolve input written).steps = front ++ written.steps ∧
      ((outputBase input directory).join path).steps =
        front ++ (directory.steps ++ path.steps) := by
  rw [Path.steps_join _ hrelative, outputBase_eq_resolve]
  unfold resolve
  cases input.parent? with
  | none => exact ⟨[], rfl, rfl⟩
  | some parent =>
      cases habsolute : directory.isAbsolute with
      | true =>
          exact ⟨[], by simp [Path.join, hwritten, habsolute], by simp [Path.join, habsolute]⟩
      | false =>
          refine ⟨parent.steps, Path.steps_join parent (hwritten.trans habsolute), ?_⟩
          rw [Path.steps_join parent habsolute, List.append_assoc]

/-- The path by which the input refers to a file leads to the file. -/
theorem steps_resolve_pathFromInput (input directory : Path)
    (htidy : FileNaming.tidy path = path) (hne : path ≠ []) :
    (resolve input (pathFromInput directory path)).steps =
      ((outputBase input directory).join path).steps := by
  have hrelative : path.isAbsolute = false := htidy ▸ Path.isAbsolute_tidy path
  obtain ⟨front, hwritten, hfile⟩ :=
    exists_steps_resolve input hrelative (isAbsolute_pathFromInput directory htidy hne)
  rw [hwritten, hfile, steps_pathFromInput directory htidy hne]

end Location

end MemberSplit
