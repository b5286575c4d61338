import Mathlib.Logic.Function.Basic
import MemberSplit.Proofs.Destination.Sharing

/-!
# File name templates

A template whose braces all belong to placeholders is a row of characters and placeholders. The
placeholders are filled in one kind after the other; as nothing that is filled in brings a new brace
with it, until the extension, which comes last, this is the same as to fill in all of them at once.
-/

namespace MemberSplit.FileNaming

/-- What a placeholder stands for. -/
inductive Place where
  | owner
  | method
  | key
  | extension
  deriving DecidableEq, Repr

/-- A part of a template. -/
inductive Part where
  /-- A character that stands for itself. -/
  | literal (c : Char)
  | place (place : Place)
  deriving DecidableEq, Repr

/-- A template, as its parts in order. -/
abbrev Template := List Part

/-- How a placeholder is written. -/
def Place.name : Place → Text
  | .owner => Config.ownerPlace
  | .method => Config.methodPlace
  | .key => Config.keyPlace
  | .extension => Config.extensionPlace

theorem Place.isPlaceName_name (place : Place) : Text.IsPlaceName place.name := by
  cases place with
  | owner => exact Config.isPlaceName_ownerPlace
  | method => exact Config.isPlaceName_methodPlace
  | key => exact Config.isPlaceName_keyPlace
  | extension => exact Config.isPlaceName_extensionPlace

theorem Place.name_injective {place other : Place} (h : place.name = other.name) :
    place = other := by
  revert h
  cases place <;> cases other <;> decide

/-- A part, where some placeholders are filled in. -/
def Part.spell (filled : Place → Option Text) : Part → Text
  | .literal c => [c]
  | .place kind => (filled kind).getD kind.name

namespace Template

/-- A template, where some placeholders are filled in. -/
def spell (filled : Place → Option Text) (template : Template) : Text :=
  template.flatMap (Part.spell filled)

/-- A template as it is written. -/
def text (template : Template) : Text :=
  template.spell fun _ => none

/-- A template with all placeholders filled in. -/
def fillIn (value : Place → Text) (template : Template) : Text :=
  template.spell fun place => some (value place)

/-- All braces belong to placeholders. -/
def BracesArePlaces (template : Template) : Prop :=
  .literal '{' ∉ template ∧ .literal '}' ∉ template

instance (template : Template) : Decidable template.BracesArePlaces :=
  inferInstanceAs (Decidable (_ ∧ _))

variable {template : Template} {filled : Place → Option Text} {place : Place}

theorem spell_cons (filled : Place → Option Text) (part : Part) (rest : Template) :
    spell filled (part :: rest) = part.spell filled ++ spell filled rest := rfl

theorem mem_fillIn {value : Place → Text} {c : Char} (h : .literal c ∈ template) :
    c ∈ template.fillIn value :=
  List.mem_flatMap.mpr ⟨_, h, List.mem_singleton_self c⟩

/-- Only the placeholders that occur make a difference. -/
theorem fillIn_congr {value other : Place → Text}
    (h : ∀ place, .place place ∈ template → value place = other place) :
    template.fillIn value = template.fillIn other := by
  refine List.flatMap_congr fun part hpart => ?_
  cases part with
  | literal c => rfl
  | place place => exact h place hpart

/-- To replace the name of a place is to fill in the place, if nothing that has been filled in
before holds a brace. -/
theorem replace_spell (hbraces : template.BracesArePlaces) (hopen : filled place = none)
    (hfilled : ∀ other text, filled other = some text → '{' ∉ text) (substitute : Text) :
    (template.spell filled).replace place.name substitute =
      template.spell (Function.update filled place (some substitute)) := by
  obtain ⟨hleft, hright⟩ := hbraces
  unfold Text.replace
  induction template with
  | nil => rfl
  | cons part rest ih =>
      obtain ⟨hpart, hrest⟩ := List.ne_and_not_mem_of_not_mem_cons hleft
      have hothers := ih hrest (List.ne_and_not_mem_of_not_mem_cons hright).2
      rw [spell_cons, spell_cons, ← hothers]
      cases part with
      | literal c =>
          have hc : '{' ∉ [c] := fun h => hpart (congrArg Part.literal (List.mem_singleton.mp h))
          exact Text.replaceFrom_append_of_not_mem place.isPlaceName_name hc _
      | place other =>
          by_cases hother : other = place
          · simp only [Part.spell, hother, hopen, Option.getD_none, Function.update_self,
              Option.getD_some]
            exact Text.replaceFrom_name_append place.isPlaceName_name _
          · simp only [Part.spell, Function.update_of_ne hother]
            cases hvalue : filled other with
            | none =>
                exact Text.replaceFrom_other_append place.isPlaceName_name other.isPlaceName_name
                  (fun heq => hother (Place.name_injective heq).symm) _
            | some text =>
                exact Text.replaceFrom_append_of_not_mem place.isPlaceName_name
                  (hfilled other text hvalue) _

end Template

variable {namer : FileNaming} {template : Template}

/-- What is filled in for the placeholders. -/
def value (namer : FileNaming) (key : Text) : Place → Text
  | .owner => namer.owner
  | .method => namer.method
  | .key => key
  | .extension => namer.extension

/-- The placeholders of a template are filled in all at once. -/
theorem expand_text (hbraces : template.BracesArePlaces) {key : Text} (howner : '{' ∉ namer.owner)
    (hmethod : '{' ∉ namer.method) (hkey : '{' ∉ key) :
    namer.expand template.text key = template.fillIn (namer.value key) := by
  have hvalues : ∀ (filled : Place → Option Text) (place : Place) (text : Text), '{' ∉ text →
      (∀ other text, filled other = some text → '{' ∉ text) →
      ∀ other text', Function.update filled place (some text) other = some text' → '{' ∉ text' := by
    intro filled place text htext hfilled other text' hother
    by_cases heq : other = place
    · rw [heq, Function.update_self] at hother
      exact Option.some.inj hother ▸ htext
    · rw [Function.update_of_ne heq] at hother
      exact hfilled other text' hother
  have hnone : ∀ (other : Place) (text : Text), none = some text → '{' ∉ text :=
    fun _ _ h => nomatch h
  have howners := hvalues _ .owner _ howner hnone
  have hmethods := hvalues _ .method _ hmethod howners
  have hkeys := hvalues _ .key _ hkey hmethods
  have hall : Function.update (Function.update (Function.update
      (Function.update (fun _ => none) .owner (some namer.owner)) .method (some namer.method))
      .key (some key)) .extension (some namer.extension) =
        fun place => some (namer.value key place) := by
    funext place
    cases place <;> rfl
  have hplaced : namer.expand template.text key =
      (((template.text.replace Place.owner.name namer.owner).replace Place.method.name
        namer.method).replace Place.key.name key).replace Place.extension.name
          namer.extension := rfl
  rw [hplaced, Template.text, Template.replace_spell hbraces rfl hnone,
    Template.replace_spell hbraces rfl howners, Template.replace_spell hbraces rfl hmethods,
    Template.replace_spell hbraces rfl hkeys, hall]
  rfl

end MemberSplit.FileNaming
