import Mathlib.Data.List.Basic
import MemberSplit.Destination.Location
import MemberSplit.Proofs.Path.Pieces
import MemberSplit.Proofs.Text.Filling

/-!
# How the input refers to its files

The input refers to a file by the parts of two paths. Tidy paths are written by their names, so
those that are seen from one directory are referred to differently.
-/

namespace MemberSplit

namespace Path

theorem slash_not_mem_of_mem_names {path : Path} {name : Text} (h : name ∈ path.names) :
    '/' ∉ name :=
  slash_not_mem_of_mem_pieces (List.mem_filter.mp h).1

theorem isFiller_of_mem_names {path : Path} {name : Text} (h : name ∈ path.names) :
    isFiller name = false := by
  simpa using (List.mem_filter.mp h).2

theorem referencePart?_component {piece : Text} (h : isFiller piece = false) :
    Location.referencePart? (component piece) = some piece := by
  unfold component
  split
  next hdot => simp [isFiller, hdot] at h
  next =>
    split
    next hdots => rw [hdots]; rfl
    next => rfl

/-- The components of a tidy path are its names. -/
theorem components_of_tidy {path : Path} (h : FileNaming.tidy path = path) :
    path.components = path.names.map component := by
  cases hnames : path.names with
  | nil =>
      have hempty : path = [] := by
        rw [← h]
        exact congrArg (Text.joinWith ['/']) hnames
      rw [hempty]
      rfl
  | cons first rest =>
      have hpieces : path.pieces = first :: rest := by
        rw [← hnames, ← pieces_joinWith (by simp [hnames]) fun _ => slash_not_mem_of_mem_names]
        exact congrArg pieces h.symm
      have hfull : ∀ piece ∈ first :: rest, isFiller piece = false := by
        intro piece hmem
        rw [← hnames] at hmem
        exact isFiller_of_mem_names hmem
      obtain ⟨hfirst, hrest⟩ := List.forall_mem_cons.mp hfull
      have hstart : first.isEmpty = false := by
        cases first with
        | nil => simp [isFiller] at hfirst
        | cons c others => rfl
      have hkept : (rest.filter fun piece => !isFiller piece) = rest :=
        List.filter_eq_self.mpr fun piece hmem => by simp [hrest piece hmem]
      unfold components
      rw [hpieces]
      simp [hstart, hkept]

theorem filterMap_referencePart?_names (path : Path) :
    (path.names.map component).filterMap Location.referencePart? = path.names := by
  rw [List.filterMap_map]
  have hparts : ∀ piece ∈ path.names, (Location.referencePart? ∘ component) piece = some piece :=
    fun piece hmem => referencePart?_component (isFiller_of_mem_names hmem)
  rw [List.filterMap_congr hparts, List.filterMap_some]

/-- In a reference, a tidy path is written by its names. -/
theorem filterMap_referencePart? {path : Path} (h : FileNaming.tidy path = path) :
    path.components.filterMap Location.referencePart? = path.names := by
  rw [components_of_tidy h, filterMap_referencePart?_names]

theorem mem_pieces_of_name_mem {path : Path} {name : Text}
    (hmem : Component.name name ∈ path.components) : name ∈ path.pieces := by
  have hpiece : ∀ piece, component piece = .name name → piece = name := by
    intro piece h
    unfold component at h
    split at h
    next => cases h
    next =>
      split at h
      next => cases h
      next => exact Component.name.inj h
  unfold components at hmem
  split at hmem
  next => cases hmem
  next first rest hpieces =>
    rw [hpieces]
    rcases List.mem_append.mp hmem with hstart | hrest
    · split at hstart
      next => exact hpiece first (List.mem_singleton.mp hstart).symm ▸ List.mem_cons_self
      next => split at hstart <;> simp at hstart
    · obtain ⟨piece, hfilter, heq⟩ := List.mem_map.mp hrest
      exact List.mem_cons_of_mem _ (hpiece piece heq ▸ (List.mem_filter.mp hfilter).1)

theorem slash_not_mem_referenceParts {path : Path} {part : Text}
    (hmem : part ∈ path.components.filterMap Location.referencePart?) : '/' ∉ part := by
  obtain ⟨component, hcomponent, hpart⟩ := List.mem_filterMap.mp hmem
  cases component with
  | root => simp [← Option.some.inj hpart]
  | current => cases hpart
  | parent => rw [← Option.some.inj hpart]; decide
  | name name =>
      rw [← Option.some.inj hpart]
      exact slash_not_mem_of_mem_pieces (mem_pieces_of_name_mem hcomponent)

/-- Pieces without slashes are told apart by what they are joined to, unless there are none. -/
theorem joinWith_injective {first second : List Text} (hfirst : first ≠ []) (hsecond : second ≠ [])
    (hslash : ∀ piece ∈ first, '/' ∉ piece) (hslash' : ∀ piece ∈ second, '/' ∉ piece)
    (h : Text.joinWith ['/'] first = Text.joinWith ['/'] second) : first = second := by
  rw [← pieces_joinWith hfirst hslash, h, pieces_joinWith hsecond hslash']

theorem names_eq_nil_of_joinWith_eq_nil {path : Path}
    (h : Text.joinWith ['/'] path.names = []) : path.names = [] := by
  by_contra hne
  have hnames : path.names = [[]] := by
    rw [← pieces_joinWith hne fun _ => slash_not_mem_of_mem_names, h]
    rfl
  have hmem : [] ∈ path.names := by simp [hnames]
  cases isFiller_of_mem_names hmem

end Path

namespace Location

/-- Tidy paths are told apart by how the input refers to them. -/
theorem eq_of_pathFromInput_eq {directory first second : Path}
    (hfirst : FileNaming.tidy first = first) (hsecond : FileNaming.tidy second = second)
    (h : pathFromInput directory first = pathFromInput directory second) : first = second := by
  have hslash : ∀ path : Path, ∀ part ∈
      directory.components.filterMap referencePart? ++ path.names, '/' ∉ part := by
    intro path part hmem
    rcases List.mem_append.mp hmem with hfront | hname
    · exact Path.slash_not_mem_referenceParts hfront
    · exact Path.slash_not_mem_of_mem_names hname
  simp only [pathFromInput, List.filterMap_append, Path.filterMap_referencePart? hfirst,
    Path.filterMap_referencePart? hsecond] at h
  refine Path.eq_of_names_eq hfirst hsecond ?_
  cases hfront : directory.components.filterMap referencePart? with
  | cons part parts =>
      have hparts := Path.joinWith_injective (by simp [hfront]) (by simp [hfront]) (hslash first)
        (hslash second) h
      exact List.append_cancel_left hparts
  | nil =>
      -- Without a directory, a path without names is written as nothing at all.
      simp only [hfront, List.nil_append] at h hslash
      by_cases hnone : first.names = []
      · rw [hnone] at h ⊢
        exact (Path.names_eq_nil_of_joinWith_eq_nil h.symm).symm
      · have hnone' : second.names ≠ [] := by
          intro hnames
          rw [hnames] at h
          exact hnone (Path.names_eq_nil_of_joinWith_eq_nil h)
        exact Path.joinWith_injective hnone hnone' (hslash first) (hslash second) h

/-- Lines that show the paths of their files tell tidy paths apart. -/
theorem eq_of_reference_eq {template : Text} {directory first second : Path}
    (htemplate : Text.contains template Config.pathPlace = true)
    (hfirst : FileNaming.tidy first = first) (hsecond : FileNaming.tidy second = second)
    (h : reference template directory first = reference template directory second) :
    first = second := by
  rw [reference, reference, Text.replace_eq_fill, Text.replace_eq_fill] at h
  have hplace := Text.mem_withPlaces htemplate (by decide)
  exact eq_of_pathFromInput_eq hfirst hsecond (Text.fill_injective hplace h)

/-- The usual line that refers to a file. -/
theorem reference_default (directory path : Path) :
    reference ({} : Config).referenceTemplate directory path =
      ("#include \"" : Text) ++ pathFromInput directory path ++ ("\"" : Text) := rfl

end Location

end MemberSplit
