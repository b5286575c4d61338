import MemberSplit.Proofs.Config.Check
import MemberSplit.Proofs.Destination.Position
import MemberSplit.Proofs.Path.Filling
import MemberSplit.Proofs.Text.FileComponent

/-!
# Groups that share a file

Two groups are in one file exactly if their templates name the same pieces once they are filled in,
however differently they are written. For two dispatch keys this is so if the same is left of them
when they are made safe for a file name.
-/

namespace MemberSplit

namespace Config

theorem isPlaceName_ownerPlace : Text.IsPlaceName ownerPlace :=
  ⟨"owner", by decide, by decide, by decide⟩

theorem isPlaceName_methodPlace : Text.IsPlaceName methodPlace :=
  ⟨"method", by decide, by decide, by decide⟩

theorem isPlaceName_keyPlace : Text.IsPlaceName keyPlace :=
  ⟨"key", by decide, by decide, by decide⟩

theorem isPlaceName_extensionPlace : Text.IsPlaceName extensionPlace :=
  ⟨"ext", by decide, by decide, by decide⟩

end Config

namespace FileNaming

open Text (fill)

variable {namer : FileNaming}

/-- The template of a group with its places filled in. -/
def filled (namer : FileNaming) : Group → Text
  | .core => namer.expand namer.templates.core []
  | .dispatch key => namer.expand namer.templates.dispatch key.fileComponent
  | .helper => namer.expand namer.templates.helper []

theorem path_eq_tidy (namer : FileNaming) (group : Group) :
    namer.path group = tidy (namer.filled group) := by
  cases group <;> rfl

/-- Two groups share a file exactly if their filled templates agree but for what means nothing. -/
theorem path_eq_path_iff (namer : FileNaming) (first second : Group) :
    namer.path first = namer.path second ↔
      Path.names (namer.filled first) = Path.names (namer.filled second) := by
  rw [path_eq_tidy, path_eq_tidy]
  constructor
  · intro h
    rw [← Path.names_tidy, h, Path.names_tidy]
  · exact congrArg (Text.joinWith ['/'])

/-- The template for dispatch keys with all places filled in but those for the key. -/
def keyForm (namer : FileNaming) : Text.Form :=
  Text.withPlaces ((namer.templates.dispatch.replace Config.ownerPlace namer.owner).replace
    Config.methodPlace namer.method) Config.keyPlace

/-- No place for the key stands behind a brace that is open, so it is not part of a name. -/
def KeyStandsFree (namer : FileNaming) : Prop :=
  Text.placesAreFree false namer.keyForm = true

instance (namer : FileNaming) : Decidable namer.KeyStandsFree :=
  inferInstanceAs (Decidable (_ = true))

/-- The template for dispatch keys with all places filled in but those for the key, the extension
too. -/
def dispatchForm (namer : FileNaming) : Text.Form :=
  Text.replacePlaces namer.keyForm Config.extensionPlace (namer.extension.map some)

theorem expand_dispatch (hfree : namer.KeyStandsFree) {key : Text} (hkey : '{' ∉ key) :
    namer.expand namer.templates.dispatch key = fill key namer.dispatchForm := by
  have hextension : (fill key namer.keyForm).replace Config.extensionPlace namer.extension =
      fill key namer.dispatchForm :=
    Text.replaceFrom_fill Config.isPlaceName_extensionPlace hkey hfree (by simp)
  rw [← hextension]
  simp only [expand]
  rw [Text.replace_eq_fill _ Config.keyPlace]
  rfl

/-- A template with a place for the key keeps it while the others are filled in. -/
theorem mem_dispatchForm
    (hdispatch : Text.contains namer.templates.dispatch Config.keyPlace = true) :
    none ∈ namer.dispatchForm := by
  have howner := Text.contains_replace Config.isPlaceName_ownerPlace Config.isPlaceName_keyPlace
    (by decide) hdispatch namer.owner
  have hmethod := Text.contains_replace Config.isPlaceName_methodPlace Config.isPlaceName_keyPlace
    (by decide) howner namer.method
  exact Text.mem_replacePlacesFrom Config.isPlaceName_extensionPlace (by simp)
    (Text.mem_withPlaces hmethod (by decide))

/-- Two dispatch keys share a file exactly if the same is left of them. -/
theorem path_dispatch_eq_iff (hfree : namer.KeyStandsFree)
    (hdispatch : Text.contains namer.templates.dispatch Config.keyPlace = true)
    (first second : Text) :
    namer.path (.dispatch first) = namer.path (.dispatch second) ↔
      first.fileComponent = second.fileComponent := by
  have hsafe : ∀ key : Text, '/' ∉ key.fileComponent ∧ '.' ∉ key.fileComponent := fun key =>
    ⟨Text.not_mem_fileComponent (by decide) key, Text.not_mem_fileComponent (by decide) key⟩
  constructor
  · intro h
    rw [path_eq_path_iff, filled, filled,
      expand_dispatch hfree (Text.not_mem_fileComponent (by decide) first),
      expand_dispatch hfree (Text.not_mem_fileComponent (by decide) second)] at h
    exact Path.names_fill_injective (mem_dispatchForm hdispatch) (hsafe first) (hsafe second) h
  · intro h
    rw [path, path, h]

end FileNaming

namespace Grouping

variable {namer : FileNaming} {preamble : Preamble} {list : List Classified}

/-- A file has the group and the preamble of a definition that is placed there. -/
theorem exists_placement_of_group {destination : Destination}
    (hmem : destination ∈ (ofClassified namer preamble list).destinations) :
    destination.preamble = preamble.linesOf destination.group ∧
      ∃ placement ∈ keptPlacements namer list, placement.path = destination.path ∧
        placement.classified.group = destination.group := by
  rw [destinations_ofClassified] at hmem
  obtain ⟨path, -, hsome⟩ := List.mem_filterMap.mp hmem
  unfold Destination.ofPlacements? at hsome
  split at hsome
  next => cases hsome
  next first rest hfilter =>
    obtain rfl := Option.some.inj hsome
    have hfirst : first ∈ (keptPlacements namer list).filter fun placement =>
        placement.path = path := by simp [hfilter]
    obtain ⟨hkept, hpath⟩ := List.mem_filter.mp hfirst
    exact ⟨rfl, first, hkept, of_decide_eq_true hpath, rfl⟩

end Grouping

end MemberSplit
