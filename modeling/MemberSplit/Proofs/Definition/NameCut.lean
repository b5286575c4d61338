import MemberSplit.Definition.ParameterType
import MemberSplit.Proofs.Signature.Grammar

/-!
# Where the name of a parameter is cut off

The name of a parameter is found behind the shortest type. In a declaration that does not end in
array brackets, it is always the last word: this is cut off if it can be a name, if something that
ends a type stands in front of it, and if what is left is not one of the words that go on.
-/

namespace MemberSplit

theorem Text.trimEnd_append_blanks {blanks : Text} (front : Text)
    (hblanks : ∀ c ∈ blanks, isBlank c = true) :
    trimEnd (front ++ blanks) = trimEnd front := by
  rw [trimEnd, List.reverse_append, List.dropWhile_append_of_pos (by simpa using hblanks)]
  rfl

theorem Name.isBlank_of_isIdentifier {name : Text} (h : Name.isIdentifier name = true) :
    ∀ c ∈ name, isBlank c = false := by
  intro c hmem
  rw [Bool.eq_false_iff]
  intro hblank
  have hword := isWordChar_of_isIdentifier h c hmem
  rw [isWordChar_of_isBlank hblank] at hword
  cases hword

theorem Name.trimStart_of_isIdentifier {name : Text} (h : Name.isIdentifier name = true) :
    Text.trimStart name = name := by
  cases name with
  | nil => cases h
  | cons c others =>
      exact List.dropWhile_cons_of_neg (by simp [isBlank_of_isIdentifier h c List.mem_cons_self])

namespace ParameterType

variable {text declaration : Text}

/-- The text ends neither in white space nor in array brackets. -/
def EndsPlain (text : Text) : Prop :=
  ∀ c ∈ text.getLast?, isBlank c = false ∧ c ≠ ']'

instance : Decidable (EndsPlain text) :=
  decidable_of_iff (text.getLast?.all (fun c => !isBlank c && c != ']') = true) <| by
    cases hlast : text.getLast? <;> simp [EndsPlain, hlast]

/-- The type without a space in front of a reference or pointer mark. -/
def tight (type : Text) : Text :=
  Text.replace (Text.replace type " &".toList "&".toList) " *".toList "*".toList

/-- What is left of a declaration if its last word is taken for a name. -/
def looseFront? (declaration : Text) : Option Text :=
  let front : Text := declaration.rdropWhile isWordChar
  if Name.isIdentifier (declaration.rtakeWhile isWordChar) && front.getLast?.any endsType &&
      !(front.trimEnd.isEmpty || openWords.contains front.trimEnd) then some front.trimEnd
  else none

theorem EndsPlain.of_append {front : Text} (h : EndsPlain (front ++ text)) : EndsPlain text := by
  intro c hc
  apply h
  rw [Option.mem_def] at hc ⊢
  rw [List.getLast?_append, hc]
  rfl

theorem isArrays_eq_false {c : Char} (hlast : text.getLast? = some c) (hc : c ≠ ']')
    (inside : Bool) : isArrays inside text = false := by
  induction text generalizing inside with
  | nil => cases hlast
  | cons first rest ih =>
      cases rest with
      | nil =>
          obtain rfl : first = c := by simpa using hlast
          cases inside <;> simp [isArrays, hc]
      | cons next others =>
          have hrest := ih (by simpa using hlast)
          cases inside with
          | false => rw [isArrays, hrest, Bool.and_false]
          | true => rw [isArrays, hrest]

/-- Behind a plain end there are no array brackets. -/
theorem isArrays_trimStart (h : EndsPlain text) :
    isArrays false text.trimStart = text.isEmpty := by
  cases hlast : text.getLast? with
  | none =>
      rw [List.getLast?_eq_none_iff.mp hlast]
      rfl
  | some c =>
      obtain ⟨hblank, hbracket⟩ := h c hlast
      obtain ⟨front, rfl⟩ := List.getLast?_eq_some_iff.mp hlast
      have htrim : Text.trimStart (front ++ [c]) = Text.trimStart front ++ [c] := by
        rw [Text.trimStart, List.dropWhile_append, List.dropWhile_cons_of_neg (by simp [hblank])]
        split
        next hempty => rw [Text.trimStart, List.isEmpty_iff.mp hempty]; rfl
        next => rfl
      rw [htrim, isArrays_eq_false (by simp) hbracket]
      simp

theorem arraysAfterName?_eq (h : EndsPlain text) :
    arraysAfterName? text = if Name.isIdentifier text.trimStart then some [] else none := by
  obtain ⟨blanks, hblanks⟩ := List.dropWhile_suffix (l := text) isBlank
  have hplain : EndsPlain text.trimStart := by
    rw [← hblanks] at h
    exact h.of_append
  unfold arraysAfterName?
  revert hplain
  generalize text.trimStart = inner
  intro hplain
  cases inner with
  | nil => rfl
  | cons c others =>
      have hrest : EndsPlain (others.dropWhile isWordChar) := by
        obtain ⟨word, hword⟩ := List.dropWhile_suffix (l := others) isWordChar
        rw [← hword] at hplain
        rw [← List.cons_append] at hplain
        exact hplain.of_append
      have hempty : (others.dropWhile isWordChar).isEmpty = others.all isWordChar := by
        rw [Bool.eq_iff_iff, List.isEmpty_iff, List.dropWhile_eq_nil_iff, List.all_eq_true]
      by_cases hstart : isIdentStart c = true
      · have hread : Name.identifier? (c :: others) =
            some (c :: others.takeWhile isWordChar, others.dropWhile isWordChar) := if_pos hstart
        have hname : Name.isIdentifier (c :: others) = others.all isWordChar := by
          simp [Name.isIdentifier, hstart]
        simp only [hread, hname, isArrays_trimStart hrest, hempty]
        split
        next hall => rw [List.isEmpty_iff.mp (hempty.trans hall)]; rfl
        next => rfl
      · simp [Name.identifier?, Name.isIdentifier, hstart]

/-- The place of a cut: behind something that ends a type, in front of a name. -/
theorem exists_of_cutName? {type arrays : Text} (h : cutName? text = some (type, arrays)) :
    ∃ before c rest, text = before ++ c :: rest ∧ endsType c = true ∧
      arraysAfterName? rest = some arrays ∧ type = before ++ [c] := by
  induction text generalizing type with
  | nil => cases h
  | cons c rest ih =>
      simp only [cutName?, Option.orElse_eq_orElse, Option.orElse_eq_or,
        Option.or_eq_some_iff] at h
      rcases h with hhere | ⟨-, hlater⟩
      · obtain ⟨hends, hmap⟩ := Option.ite_none_right_eq_some.mp hhere
        obtain ⟨arrays', harrays, heq⟩ := Option.map_eq_some_iff.mp hmap
        obtain ⟨rfl, rfl⟩ := Prod.mk.inj heq
        exact ⟨[], c, rest, rfl, hends, harrays, rfl⟩
      · obtain ⟨⟨type', arrays'⟩, hrest, heq⟩ := Option.map_eq_some_iff.mp hlater
        obtain ⟨rfl, rfl⟩ := Prod.mk.inj heq
        obtain ⟨before, c', rest', rfl, hends, harrays, rfl⟩ := ih hrest
        exact ⟨c :: before, c', rest', rfl, hends, harrays, rfl⟩

/-- Where a name can be cut off, one is. -/
theorem isSome_cutName? {rest : Text} {c : Char} (hends : endsType c = true)
    (harrays : (arraysAfterName? rest).isSome = true) (before : Text) :
    (cutName? (before ++ c :: rest)).isSome = true := by
  induction before with
  | nil =>
      simp only [List.nil_append, cutName?, cutBehind?, if_pos hends]
      simp [harrays]
  | cons first others ih =>
      simp only [List.cons_append, cutName?]
      simp [ih]

theorem isWordChar_of_endsType {c : Char} (h : endsType c = true) : isWordChar c = false := by
  simp only [endsType, Bool.or_eq_true, beq_iff_eq] at h
  rcases h with ((hblank | rfl) | rfl) | rfl
  · exact isWordChar_of_isBlank hblank
  · decide
  · decide
  · decide

theorem isWordChar_any_of_endsType {front : Text} (h : front.getLast?.any endsType = true) :
    front.getLast?.any isWordChar = false := by
  obtain ⟨c, hlast, hends⟩ := (Option.any_eq_true _ _).mp h
  rw [hlast]
  exact isWordChar_of_endsType hends

/-- A name behind the end of a type is cut off, unless only a word that goes on would be left. -/
theorem looseFront?_append {front name : Text} (hname : Name.isIdentifier name = true)
    (hfront : front.getLast?.any endsType = true) :
    looseFront? (front ++ name) =
      if front.trimEnd.isEmpty || openWords.contains front.trimEnd then none
      else some front.trimEnd := by
  have hword := Name.isWordChar_of_isIdentifier hname
  have hlast := isWordChar_any_of_endsType hfront
  rw [looseFront?, Text.rtakeWhile_run hword hlast, Text.rdropWhile_run hword hlast, hname, hfront]
  cases front.trimEnd.isEmpty || openWords.contains front.trimEnd <;> rfl

theorem exists_getLast?_append_blanks {c : Char} (hends : endsType c = true) {blanks : Text}
    (hblanks : ∀ d ∈ blanks, isBlank d = true) (before : Text) :
    ∃ d, (before ++ [c] ++ blanks).getLast? = some d ∧ endsType d = true := by
  rw [List.getLast?_append]
  cases hlast : blanks.getLast? with
  | none => exact ⟨c, by simp, hends⟩
  | some d =>
      have hblank := hblanks d (List.mem_of_getLast? hlast)
      exact ⟨d, rfl, by simp [endsType, hblank]⟩

theorem ne_nil_of_looseFront? {front : Text} (h : looseFront? declaration = some front) :
    front ≠ [] := by
  unfold looseFront? at h
  obtain ⟨hloose, hfront⟩ := Option.ite_none_right_eq_some.mp h
  obtain rfl := Option.some.inj hfront
  rintro hempty
  simp [hempty] at hloose

/-- A last word that can be a name is cut off. -/
theorem looseFront?_eq_none (hplain : EndsPlain declaration) (hnone : cutName? declaration = none) :
    looseFront? declaration = none := by
  by_contra hloose
  obtain ⟨front, hloose⟩ := Option.ne_none_iff_exists'.mp hloose
  have hsplit : declaration.rdropWhile isWordChar ++ declaration.rtakeWhile isWordChar =
      declaration := List.rdropWhile_append_rtakeWhile
  unfold looseFront? at hloose
  obtain ⟨hloose, -⟩ := Option.ite_none_right_eq_some.mp hloose
  simp only [Bool.and_eq_true] at hloose
  obtain ⟨⟨hname, hends⟩, -⟩ := hloose
  obtain ⟨c, hlast, hends⟩ := (Option.any_eq_true _ _).mp hends
  obtain ⟨before, hbefore⟩ := List.getLast?_eq_some_iff.mp hlast
  have harrays : (arraysAfterName? (declaration.rtakeWhile isWordChar)).isSome = true := by
    rw [← hsplit] at hplain
    rw [arraysAfterName?_eq hplain.of_append, Name.trimStart_of_isIdentifier hname, if_pos hname]
    rfl
  have hsome := isSome_cutName? hends harrays before
  rw [hbefore, List.append_assoc, List.singleton_append] at hsplit
  rw [hsplit, hnone] at hsome
  cases hsome

/-- What is cut off is the last word, with white space in front of it. -/
theorem exists_append_of_cutName? {type arrays : Text} (hplain : EndsPlain declaration)
    (hcut : cutName? declaration = some (type, arrays)) :
    ∃ front name, declaration = front ++ name ∧ Name.isIdentifier name = true ∧
      front.getLast?.any endsType = true ∧ front.trimEnd = type.trimEnd ∧ arrays = [] := by
  obtain ⟨before, c, rest, rfl, hends, harrays, rfl⟩ := exists_of_cutName? hcut
  have hrest : EndsPlain rest := by
    rw [← List.singleton_append, ← List.append_assoc] at hplain
    exact hplain.of_append
  rw [arraysAfterName?_eq hrest] at harrays
  obtain ⟨hname, hnil⟩ := Option.ite_none_right_eq_some.mp harrays
  obtain rfl := Option.some.inj hnil
  have hblanks : ∀ d ∈ rest.takeWhile isBlank, isBlank d = true := fun _ => List.mem_takeWhile_imp
  refine ⟨before ++ [c] ++ rest.takeWhile isBlank, Text.trimStart rest, ?_, hname, ?_,
    Text.trimEnd_append_blanks _ hblanks, rfl⟩
  · simp [Text.trimStart]
  · obtain ⟨d, hlast, hends'⟩ := exists_getLast?_append_blanks hends hblanks before
    rw [hlast]
    exact hends'

/-- Without array brackets, the name is the last word if it can be one. -/
theorem withoutName_eq (hplain : EndsPlain declaration) :
    withoutName declaration = (looseFront? declaration).getD declaration := by
  unfold withoutName
  split
  next hnone => rw [looseFront?_eq_none hplain hnone]; rfl
  next type arrays hcut =>
    obtain ⟨front, name, rfl, hname, hfront, htrim, rfl⟩ := exists_append_of_cutName? hplain hcut
    rw [looseFront?_append hname hfront, htrim, List.append_nil]
    split
    next => rfl
    next => rfl

theorem endsPlain_append_of_isIdentifier {name : Text} (h : Name.isIdentifier name = true)
    (front : Text) : EndsPlain (front ++ name) := by
  intro c hlast
  have hne : name ≠ [] := by
    rintro rfl
    cases h
  rw [Option.mem_def, List.getLast?_append_of_ne_nil _ hne] at hlast
  have hmem := List.mem_of_getLast? hlast
  refine ⟨Name.isBlank_of_isIdentifier h c hmem, ?_⟩
  rintro rfl
  exact absurd (Name.isWordChar_of_isIdentifier h ']' hmem) (by decide)

theorem withoutName_append {name : Text} (hname : Name.isIdentifier name = true) (front : Text)
    (hfront : front.getLast?.any endsType = true) :
    withoutName (front ++ name) =
      if front.trimEnd.isEmpty || openWords.contains front.trimEnd then front ++ name
      else front.trimEnd := by
  rw [withoutName_eq (endsPlain_append_of_isIdentifier hname front),
    looseFront?_append hname hfront]
  split
  next => rfl
  next => rfl

theorem trimEnd_of_endsPlain (h : EndsPlain text) : Text.trimEnd text = text := by
  refine List.rdropWhile_eq_self_iff.mpr fun hne hblank => ?_
  have hplain := (h (text.getLast hne) (List.getLast?_eq_some_getLast hne)).1
  rw [hplain] at hblank
  cases hblank

/-- The words that go on end in a letter. -/
theorem not_mem_openWords (h : text.getLast?.any endsType = true) :
    openWords.contains text = false := by
  have hletters : ∀ word ∈ openWords, word.getLast?.any endsType = false := by decide
  rw [Bool.eq_false_iff, ne_eq, List.contains_iff_mem]
  intro hmem
  rw [hletters text hmem] at h
  cases h

end ParameterType

end MemberSplit
