import MemberSplit.Proofs.Destination.Location
import MemberSplit.Proofs.Destination.Template

/-!
# Dispatch keys do not steer paths

A dispatch key is text from the source, and the path of its file is made from it. Main statement:
the template alone decides how many components the path has and which of them lead to a parent
directory; the key shows only in the components that have a place for it.
-/

namespace MemberSplit

namespace Path

theorem isFiller_of_mem_ne_dot {piece : Text} {c : Char} (h : c ∈ piece) (hc : c ≠ '.') :
    isFiller piece = false := by
  refine Bool.or_eq_false_iff.mpr ⟨List.isEmpty_eq_false_iff.mpr (List.ne_nil_of_mem h), ?_⟩
  refine decide_eq_false fun hdot => ?_
  rw [hdot] at h
  exact hc (List.mem_singleton.mp h)

theorem eq_of_component_eq_parent {piece : Text} (h : component piece = .parent) :
    piece = ".." := by
  unfold component at h
  split at h
  next => cases h
  next =>
    split at h
    next hdots => exact hdots
    next => cases h

end Path

namespace FileNaming

namespace Template

/-- What stands between the slashes of a template. -/
def pieces (template : Template) : List Template :=
  template.splitOn (.literal '/')

/-- The pieces of a template are those of its text, whatever is filled in, unless that holds a
slash. -/
theorem pieces_spell {filled : Place → Option Text}
    (hfilled : ∀ place : Place, '/' ∉ (filled place).getD place.name) (template : Template) :
    Path.pieces (template.spell filled) = template.pieces.map (spell filled) := by
  refine Path.pieces_flatMap (Part.spell filled) (.literal '/') rfl fun part _ hpart => ?_
  cases part with
  | literal c =>
      intro hmem
      exact hpart (congrArg Part.literal (List.mem_singleton.mp hmem).symm)
  | place kind => exact hfilled kind

/-- Whether the part is a character other than a dot. -/
def isAnchor : Part → Bool
  | .literal c => c != '.'
  | .place _ => false

/-- Each piece with a place for the key also has a character of its own, other than a dot. -/
def KeysAreAnchored (template : Template) : Prop :=
  ∀ piece ∈ template.pieces, .place .key ∈ piece → ∃ part ∈ piece, isAnchor part = true

instance (template : Template) : Decidable template.KeysAreAnchored :=
  inferInstanceAs (Decidable (∀ piece ∈ template.pieces, _))

end Template

/-- The pieces of the template that show in the path of each key: those with a place for the key,
and those that mean something. -/
def shownPieces (namer : FileNaming) (template : Template) : List Template :=
  template.pieces.filter fun piece =>
    decide (.place .key ∈ piece) || !Path.isFiller (piece.fillIn (namer.value []))

/-- The components of a dispatch file's path. -/
def keyComponents (namer : FileNaming) (key : Text) : List Path.Component :=
  (namer.path (.dispatch key)).components

/-- Keys do not steer the paths that are made from the template. -/
structure IsSteady (namer : FileNaming) (template : Template) : Prop where
  /-- Each piece that shows gives one component. -/
  components : ∀ key, namer.keyComponents key = (namer.shownPieces template).map fun piece =>
    Path.component (piece.fillIn (namer.value key.fileComponent))
  length_eq : ∀ first second,
    (namer.keyComponents first).length = (namer.keyComponents second).length
  /-- Without a place for the key, a component is the same for all keys. -/
  agree : ∀ (first second : Text) (index : Nat) (piece : Template),
    (namer.shownPieces template)[index]? = some piece → .place .key ∉ piece →
      (namer.keyComponents first)[index]? = (namer.keyComponents second)[index]?
  /-- Two dots are in the template without its keys, if they are in the path. -/
  parent : ∀ (key : Text) (index : Nat),
    (namer.keyComponents key)[index]? = some Path.Component.parent →
      ∃ piece : Template, (namer.shownPieces template)[index]? = some piece ∧
        .place .key ∉ piece ∧ piece.fillIn (namer.value []) = ".."

variable {namer : FileNaming} {template : Template}

/-- A piece without a place for the key is filled in alike for all keys. -/
theorem fillIn_value_congr {piece : Template} (h : .place .key ∉ piece) (first second : Text) :
    piece.fillIn (namer.value first) = piece.fillIn (namer.value second) := by
  refine Template.fillIn_congr fun place hplace => ?_
  cases place with
  | key => exact absurd hplace h
  | owner => rfl
  | method => rfl
  | extension => rfl

theorem exists_anchor (hanchored : template.KeysAreAnchored) {piece : Template}
    (hpiece : piece ∈ template.pieces) (hkey : .place .key ∈ piece) (value : Place → Text) :
    ∃ c ∈ piece.fillIn value, c ≠ '.' := by
  obtain ⟨part, hpart, hanchor⟩ := hanchored piece hpiece hkey
  cases part with
  | literal c => exact ⟨c, Template.mem_fillIn hpart, by simpa [Template.isAnchor] using hanchor⟩
  | place place => cases hanchor

/-- Which pieces mean something does not depend on the key. -/
theorem shows_piece (hanchored : template.KeysAreAnchored) {piece : Template}
    (hpiece : piece ∈ template.pieces) (key : Text) :
    (!Path.isFiller (piece.fillIn (namer.value key))) =
      (decide (.place .key ∈ piece) || !Path.isFiller (piece.fillIn (namer.value []))) := by
  by_cases hkey : Part.place .key ∈ piece
  · obtain ⟨c, hc, hdot⟩ := exists_anchor hanchored hpiece hkey (namer.value key)
    simp [hkey, Path.isFiller_of_mem_ne_dot hc hdot]
  · rw [fillIn_value_congr hkey key [], decide_eq_false hkey, Bool.false_or]

/-- The components of a dispatch file's path are the pieces that show, filled in. -/
theorem keyComponents_eq (htemplate : namer.templates.dispatch = template.text)
    (hbraces : template.BracesArePlaces) (hanchored : template.KeysAreAnchored)
    (howner : namer.owner.IsFilePart) (hmethod : namer.method.IsFilePart)
    (hextension : '/' ∉ namer.extension) (key : Text) :
    namer.keyComponents key = (namer.shownPieces template).map fun piece =>
      Path.component (piece.fillIn (namer.value key.fileComponent)) := by
  have hkey := key.isFilePart_fileComponent
  have hfilled : namer.filled (.dispatch key) =
      template.fillIn (namer.value key.fileComponent) := by
    rw [filled, htemplate]
    exact expand_text hbraces (howner.not_mem (by decide)) (hmethod.not_mem (by decide))
      (hkey.not_mem (by decide))
  have hpieces : Path.pieces (template.fillIn (namer.value key.fileComponent)) =
      template.pieces.map (Template.fillIn (namer.value key.fileComponent)) := by
    refine Template.pieces_spell (fun place => ?_) template
    cases place with
    | owner => exact howner.not_mem (by decide)
    | method => exact hmethod.not_mem (by decide)
    | key => exact hkey.not_mem (by decide)
    | extension => exact hextension
  have hshown : (template.pieces.filter fun piece =>
      !Path.isFiller (piece.fillIn (namer.value key.fileComponent))) =
        namer.shownPieces template :=
    List.filter_congr fun piece hpiece => shows_piece hanchored hpiece _
  rw [keyComponents, Path.components_of_tidy (Path.tidy_path namer _), path_eq_tidy,
    Path.names_tidy, hfilled, Path.names, hpieces, List.filter_map, List.map_map, ← hshown]
  rfl

theorem isSteady_of_isFilePart (htemplate : namer.templates.dispatch = template.text)
    (hbraces : template.BracesArePlaces) (hanchored : template.KeysAreAnchored)
    (howner : namer.owner.IsFilePart) (hmethod : namer.method.IsFilePart)
    (hextension : '/' ∉ namer.extension) : namer.IsSteady template := by
  have hcomponents :=
    keyComponents_eq htemplate hbraces hanchored howner hmethod hextension
  refine
    { components := hcomponents
      length_eq := fun first second => by simp [hcomponents]
      agree := ?agree
      parent := ?parent }
  case agree =>
    intro first second index piece hindex hkey
    simp only [hcomponents, List.getElem?_map, hindex, Option.map_some]
    rw [fillIn_value_congr hkey]
  case parent =>
    intro key index hparent
    rw [hcomponents, List.getElem?_map] at hparent
    obtain ⟨piece, hindex, hcomponent⟩ := Option.map_eq_some_iff.mp hparent
    have hdots := Path.eq_of_component_eq_parent hcomponent
    have hpiece := (List.mem_filter.mp (List.mem_of_getElem? hindex)).1
    have hkey : Part.place .key ∉ piece := by
      intro hkey
      obtain ⟨c, hc, hdot⟩ := exists_anchor hanchored hpiece hkey
        (namer.value key.fileComponent)
      rw [hdots] at hc
      exact hdot (by simpa using hc)
    exact ⟨piece, hindex, hkey, (fillIn_value_congr hkey [] _).trans hdots⟩

/-- What is filled in from names and keys is safe, and so keys do not steer paths. -/
theorem isSteady_ofConfig (config : Config) (owner : Text) (extension : Option Text)
    (template : Template) (htemplate : config.fileNames.dispatch = template.text)
    (hbraces : template.BracesArePlaces) (hanchored : template.KeysAreAnchored)
    (hextension : ∀ text ∈ extension, '/' ∉ text) :
    (∀ text : Text, text.fileComponent.IsFilePart ∧
      text.fileComponent.fileComponent = text.fileComponent) ∧
    (ofConfig config owner extension).IsSteady template := by
  refine ⟨fun text => ⟨text.isFilePart_fileComponent, text.fileComponent_fileComponent⟩, ?_⟩
  have hslash : '/' ∉ (ofConfig config owner extension).extension := by
    change '/' ∉ (extension.filter fun text => !text.isEmpty).getD defaultExtension
    cases hkept : extension.filter fun text => !text.isEmpty with
    | none => decide
    | some text => exact hextension text (Option.eq_some_of_filter_eq_some hkept)
  exact isSteady_of_isFilePart htemplate hbraces hanchored owner.isFilePart_fileComponent
    config.dispatchMethod.isFilePart_fileComponent hslash

/-- A template that leads out of a directory of its own. -/
def roundabout : Template :=
  "./".toList.map .literal ++ .place .owner :: "/../".toList.map .literal ++
    .place .method :: "/v_".toList.map .literal ++ [.place .key, .literal '.', .place .extension]

/-- A configuration with that template for the files of dispatch keys. -/
def roundaboutConfig : Config :=
  { fileNames := { dispatch := roundabout.text } }

theorem isSteady_ofConfig_roundabout :
    roundaboutConfig.fileNames.dispatch = roundabout.text ∧ roundabout.BracesArePlaces ∧
      roundabout.KeysAreAnchored ∧ (∀ text ∈ some "cc".toList, '/' ∉ text) ∧
      (∀ text : Text, text.fileComponent.IsFilePart ∧
        text.fileComponent.fileComponent = text.fileComponent) ∧
      (ofConfig roundaboutConfig "ns::Foo" (some "cc".toList)).IsSteady roundabout :=
  ⟨rfl, by decide, by decide, by decide,
    isSteady_ofConfig roundaboutConfig "ns::Foo" (some "cc".toList) roundabout rfl (by decide)
      (by decide) (by decide)⟩

example : (ofConfig roundaboutConfig "ns::Foo" (some "cc".toList)).path (.dispatch "../../etc/x") =
    "ns_Foo/../visit/v_etc_x.cc" := by decide

end FileNaming

end MemberSplit
