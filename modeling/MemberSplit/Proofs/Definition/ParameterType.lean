import MemberSplit.Definition.Basic
import MemberSplit.Proofs.Text.Brackets
import MemberSplit.Proofs.Text.Skeleton

/-!
# Parameter types keep brackets and commas

What makes a type of a parameter drops the default value, the name and white space, and none of
these takes a bracket or a comma along, except that a default value goes as a whole. So the types of
a parameter list can be told apart in the text that joins them with commas.
-/

namespace MemberSplit

namespace ParameterType

/-- A character on which the cuts of a parameter list depend. -/
def isMark (c : Char) : Bool :=
  Text.bracketDelta c ≠ 0 || c == ','

theorem isMark_eq_false {p : Char → Bool} (hbrackets : ("()<>[]".toList.any p) = false)
    (hcomma : p ',' = false) {c : Char} (hc : p c = true) : isMark c = false :=
  Text.isCutMark_eq_false hbrackets hcomma hc

theorem isMark_of_isBlank (c : Char) : isBlank c = true → isMark c = false :=
  isMark_eq_false (by decide) (by decide)

theorem isMark_of_isWordChar (c : Char) : isWordChar c = true → isMark c = false :=
  isMark_eq_false (by decide) (by decide)

theorem isMark_of_isIdentStart (c : Char) : isIdentStart c = true → isMark c = false :=
  isMark_eq_false (by decide) (by decide)

theorem bracketDepth_filter (text : Text) :
    Text.bracketDepth (text.filter isMark) = text.bracketDepth :=
  Text.bracketDepth_filter_isCutMark ',' text

theorem uncut_filter (depth : Int) (text : Text) :
    Text.Uncut ',' depth (text.filter isMark) ↔ Text.Uncut ',' depth text :=
  Text.uncut_filter_isCutMark ',' depth text

/-- The part of a declaration in front of its default value. -/
def front (param : Text) : Text :=
  (param.splitOutside '=').headD []

/-- The front is all of a declaration, or ends at depth zero. -/
theorem exists_front_append (param : Text) :
    ∃ rest, param = front param ++ rest ∧
      (rest = [] ∨ Text.bracketDepth (front param) = 0) := by
  obtain ⟨piece, pieces, hsplit⟩ := Text.exists_cons_of_splitOutsideFrom '=' 0 param
  have hcut := Text.areCut_splitOutsideFrom '=' 0 param
  have hjoin := Text.joinWith_splitOutsideFrom '=' 0 param
  have hfront : front param = piece := by rw [front, Text.splitOutside, hsplit]; rfl
  rw [hsplit] at hcut hjoin
  rw [hfront]
  cases pieces with
  | nil => exact ⟨[], by simpa [Text.joinWith] using hjoin.symm, .inl rfl⟩
  | cons next others =>
      rw [Text.joinWith_cons_cons, List.append_assoc] at hjoin
      exact ⟨_, hjoin.symm, .inr (by simpa using hcut.2.1)⟩

theorem filter_identifier? {text name rest : Text}
    (h : Name.identifier? text = some (name, rest)) :
    rest.filter isMark = text.filter isMark := by
  cases text with
  | nil => simp [Name.identifier?] at h
  | cons c others =>
      simp only [Name.identifier?] at h
      split at h
      next hc =>
        obtain ⟨rfl, rfl⟩ := Prod.mk.inj (Option.some.inj h)
        rw [Text.filter_dropWhile isMark_of_isWordChar,
          List.filter_cons_of_neg (by simp [isMark_of_isIdentStart c hc])]
      next => cases h

theorem filter_arraysAfterName? {text arrays : Text} (h : arraysAfterName? text = some arrays) :
    arrays.filter isMark = text.filter isMark := by
  unfold arraysAfterName? at h
  split at h
  · cases h
  next name rest hname =>
    obtain ⟨-, harrays⟩ := Option.ite_none_right_eq_some.mp h
    obtain rfl := Option.some.inj harrays
    rw [Text.trimStart, Text.filter_dropWhile isMark_of_isBlank, filter_identifier? hname,
      Text.trimStart, Text.filter_dropWhile isMark_of_isBlank]

theorem filter_cutName? {text type arrays : Text} (h : cutName? text = some (type, arrays)) :
    (type ++ arrays).filter isMark = text.filter isMark := by
  induction text generalizing type with
  | nil => simp [cutName?] at h
  | cons c rest ih =>
      simp only [cutName?, Option.orElse_eq_orElse, Option.orElse_eq_or,
        Option.or_eq_some_iff] at h
      rcases h with hhere | ⟨-, hlater⟩
      · obtain ⟨-, hmap⟩ := Option.ite_none_right_eq_some.mp hhere
        obtain ⟨arrays', harrays, heq⟩ := Option.map_eq_some_iff.mp hmap
        obtain ⟨rfl, rfl⟩ := Prod.mk.inj heq
        rw [List.singleton_append, List.filter_cons, filter_arraysAfterName? harrays,
          List.filter_cons]
      · obtain ⟨⟨type', arrays'⟩, hrest, heq⟩ := Option.map_eq_some_iff.mp hlater
        obtain ⟨rfl, rfl⟩ := Prod.mk.inj heq
        rw [List.singleton_append, List.cons_append, List.filter_cons, ih hrest,
          List.filter_cons]

theorem filter_withoutName (declaration : Text) :
    (withoutName declaration).filter isMark = declaration.filter isMark := by
  unfold withoutName
  split
  · rfl
  next type arrays hcut =>
    split
    · rfl
    · rw [List.filter_append, Text.filter_trimEnd isMark_of_isBlank, ← List.filter_append,
        filter_cutName? hcut]

/-- A parameter's type has the brackets and commas of the declaration's front. -/
theorem filter_ofParam (param : Text) :
    (ofParam param).filter isMark = (front param).filter isMark := by
  rw [ofParam, Text.filter_replace (by decide) (by decide),
    Text.filter_replace (by decide) (by decide), filter_withoutName, declaration,
    Text.filter_collapseBlanks isMark_of_isBlank]
  rfl

theorem uncut_ofParam {param : Text} (h : Text.Uncut ',' 0 param) :
    Text.Uncut ',' 0 (ofParam param) := by
  obtain ⟨rest, hparam, -⟩ := exists_front_append param
  rw [← uncut_filter, filter_ofParam, uncut_filter]
  rw [hparam] at h
  exact h.of_append

theorem bracketDepth_ofParam {param : Text} (h : param.bracketDepth = 0) :
    Text.bracketDepth (ofParam param) = 0 := by
  obtain ⟨rest, hparam, hrest⟩ := exists_front_append param
  rw [← bracketDepth_filter, filter_ofParam, bracketDepth_filter]
  rcases hrest with rfl | hdepth
  · rwa [hparam, List.append_nil] at h
  · exact hdepth

end ParameterType

namespace Definition

/-- The types of a parameter list are the pieces of the text that joins them with commas. -/
theorem splitOutside_joinWith_parameterTypes {definition : Definition}
    (hne : definition.parameterTypes ≠ []) :
    (Text.joinWith [','] definition.parameterTypes).splitOutside ',' =
      definition.parameterTypes := by
  unfold parameterTypes at hne ⊢
  simp only at hne ⊢
  split at hne
  · exact absurd rfl hne
  next hparams =>
    rw [if_neg hparams]
    apply Text.splitOutsideFrom_joinWith rfl
    apply (Text.areCut_splitOutsideFrom ',' 0 definition.paramList).map
    · intro _ _ huncut
      exact ParameterType.uncut_ofParam huncut
    · intro _ _ hdepth
      exact ParameterType.bracketDepth_ofParam hdepth

/-- The joined types tell the base type of the first parameter. -/
theorem baseType?_eq_of_joinWith_eq {first second : Definition}
    (h : Text.joinWith [','] first.parameterTypes = Text.joinWith [','] second.parameterTypes) :
    first.baseType? = second.baseType? := by
  -- No parameters are written like one parameter without a type, and both have no base type.
  have hempty : ∀ {definition other : Definition}, definition.parameterTypes = [] →
      Text.joinWith [','] definition.parameterTypes =
        Text.joinWith [','] other.parameterTypes →
      other.baseType? = none := by
    intro definition other hnil hjoin
    by_cases hother : other.parameterTypes = []
    · simp [baseType?, hother]
    · have htypes := splitOutside_joinWith_parameterTypes hother
      rw [← hjoin, hnil] at htypes
      rw [baseType?, ← htypes]
      rfl
  by_cases hfirst : first.parameterTypes = []
  · rw [hempty hfirst h, hempty hfirst rfl]
  · by_cases hsecond : second.parameterTypes = []
    · rw [hempty hsecond h.symm, hempty hsecond rfl]
    · have htypes : first.parameterTypes = second.parameterTypes := by
        rw [← splitOutside_joinWith_parameterTypes hfirst, h,
          splitOutside_joinWith_parameterTypes hsecond]
      rw [baseType?, baseType?, htypes]

end Definition

end MemberSplit
