import MemberSplit.Destination.Basic
import MemberSplit.Proofs.Definition.Overload
import MemberSplit.Proofs.Definition.Parameter

/-!
# When overloads collide

Two overloads of one name have one key exactly if the same types are kept of their parameters. If
every parameter has a name, or a type whose last word is not taken for one, the types themselves can
be told from the key; otherwise types that differ in their last word only are confused.
-/

namespace MemberSplit

theorem Text.replaceFrom_ne_nil {part substitute text : Text} (hsubstitute : substitute ≠ [])
    (hne : text ≠ []) : replaceFrom part substitute 0 text ≠ [] := by
  cases text with
  | nil => exact absurd rfl hne
  | cons c rest =>
      unfold replaceFrom
      split <;> simp [hsubstitute]

/-- A text without one of the characters of a part does not have the part. -/
theorem Text.replace_eq_self {part substitute text : Text} {c : Char} (hc : c ∈ part)
    (hnot : c ∉ text) : replace text part substitute = text := by
  unfold replace
  induction text with
  | nil => rfl
  | cons first rest ih =>
      have hleads : part.isPrefixOf (first :: rest) = false := by
        rw [Bool.eq_false_iff, ne_eq, List.isPrefixOf_iff_prefix]
        intro hleads
        exact hnot (hleads.subset hc)
      rw [replaceFrom, hleads, ih fun hmem => hnot (List.mem_cons_of_mem _ hmem)]
      rfl

namespace ParameterType

variable {type : Text}

theorem tight_ne_nil (h : type ≠ []) : tight type ≠ [] :=
  Text.replaceFrom_ne_nil (by decide) (Text.replaceFrom_ne_nil (by decide) h)

theorem mem_tight_iff {c : Char} (hc : c ∈ ['&', '*']) : c ∈ tight type ↔ c ∈ type := by
  have hmarks : (tight type).filter (['&', '*'].contains ·) =
      type.filter (['&', '*'].contains ·) := by
    rw [tight, Text.filter_replace (by decide) (by decide),
      Text.filter_replace (by decide) (by decide)]
  have hmem : c ∈ (tight type).filter (['&', '*'].contains ·) ↔
      c ∈ type.filter (['&', '*'].contains ·) := by rw [hmarks]
  have hmark : ['&', '*'].contains c = true := List.contains_iff_mem.mpr hc
  rwa [List.mem_filter, List.mem_filter, and_iff_left hmark, and_iff_left hmark] at hmem

theorem tight_eq_self (hreference : '&' ∉ type) (hpointer : '*' ∉ type) : tight type = type := by
  rw [tight, Text.replace_eq_self (c := '&') (by decide) hreference,
    Text.replace_eq_self (c := '*') (by decide) hpointer]

end ParameterType

namespace Parameter

variable {parameter other : Parameter}

theorem kept_ne_nil (h : parameter.IsProper) : parameter.kept ≠ [] := by
  unfold kept
  cases parameter.name with
  | none =>
      cases hloose : ParameterType.looseFront? parameter.type with
      | none => exact h.type_ne_nil
      | some front => exact ParameterType.ne_nil_of_looseFront? hloose
  | some name =>
      simp only
      split
      next => simp
      next => exact h.type_ne_nil

/-- The parameter has a name, or a last word that is not taken for one. -/
def IsFirm (parameter : Parameter) : Prop :=
  parameter.name.isSome = true ∨ ParameterType.looseFront? parameter.type = none

instance (parameter : Parameter) : Decidable parameter.IsFirm :=
  inferInstanceAs (Decidable (_ ∨ _))

/-- Of a firm parameter the type is kept, and with a lone word for numbers also the name. -/
theorem kept_cases (h : parameter.IsProper) (hfirm : parameter.IsFirm) :
    parameter.kept = parameter.type ∨
      ∃ name, Name.isIdentifier name = true ∧ name ∉ typeWords ∧
        parameter.type ∈ numberWords ∧ parameter.kept = parameter.type ++ ' ' :: name := by
  unfold kept
  cases hname : parameter.name with
  | none =>
      have hloose := hfirm.resolve_left (by simp [hname])
      simp [hloose]
  | some name =>
      obtain ⟨hidentifier, hnot⟩ := h.name name hname
      simp only
      split
      next hopen =>
        exact .inr ⟨name, hidentifier, hnot, h.whole (List.contains_iff_mem.mp hopen), rfl⟩
      next => exact .inl rfl

theorem not_mem_of_number {front name : Text} (hfront : front ∈ numberWords)
    (hname : Name.isIdentifier name = true) {c : Char} (hc : c ∈ ['&', '*']) :
    c ∉ front ++ ' ' :: name := by
  have hmark : isWordChar c = false ∧ c ≠ ' ' ∧ ∀ front ∈ numberWords, c ∉ front := by
    simp only [List.mem_cons, List.not_mem_nil, or_false] at hc
    rcases hc with rfl | rfl <;> decide
  obtain ⟨hword, hspace, hfronts⟩ := hmark
  simp only [List.mem_append, List.mem_cons, not_or]
  refine ⟨hfronts front hfront, hspace, fun hmem => ?_⟩
  rw [Name.isWordChar_of_isIdentifier hname c hmem] at hword
  cases hword

theorem tight_of_number {front name : Text} (hfront : front ∈ numberWords)
    (hname : Name.isIdentifier name = true) :
    ParameterType.tight (front ++ ' ' :: name) = front ++ ' ' :: name :=
  ParameterType.tight_eq_self (not_mem_of_number hfront hname (by simp))
    (not_mem_of_number hfront hname (by simp))

/-- A lone word for numbers with a name is not confused with a type of two words. -/
theorem tight_number_ne {front name : Text} (h : other.IsProper) (hfront : front ∈ numberWords)
    (hname : Name.isIdentifier name = true) (hnot : name ∉ typeWords) :
    ParameterType.tight (front ++ ' ' :: name) ≠ ParameterType.tight other.type := by
  intro heq
  rw [tight_of_number hfront hname] at heq
  have hmarks : ∀ c ∈ ['&', '*'], c ∉ other.type := by
    intro c hc hmem
    apply not_mem_of_number hfront hname hc
    rw [heq]
    exact (ParameterType.mem_tight_iff hc).mpr hmem
  rw [ParameterType.tight_eq_self (hmarks '&' (by simp)) (hmarks '*' (by simp))] at heq
  have hlead : Text.dropLead? other.type (front ++ [' ']) = some name := by
    rw [Text.dropLead?_eq_some_iff, ← heq]
    simp
  exact hnot (h.number front hfront name hlead hname)

/-- What is kept of firm parameters tells their types. -/
theorem tight_type_eq_of_kept (h : parameter.IsProper) (h' : other.IsProper)
    (hfirm : parameter.IsFirm) (hfirm' : other.IsFirm)
    (heq : ParameterType.tight parameter.kept = ParameterType.tight other.kept) :
    ParameterType.tight parameter.type = ParameterType.tight other.type := by
  obtain hkept | ⟨name, hname, hnot, hnumber, hkept⟩ := kept_cases h hfirm <;>
    obtain hkept' | ⟨name', hname', hnot', hnumber', hkept'⟩ := kept_cases h' hfirm' <;>
    rw [hkept, hkept'] at heq
  · exact heq
  · exact absurd heq.symm (tight_number_ne h hnumber' hname' hnot')
  · exact absurd heq (tight_number_ne h' hnumber hname hnot)
  · rw [tight_of_number hnumber hname, tight_of_number hnumber' hname'] at heq
    have hfront : ∀ front ∈ numberWords, ' ' ∉ front := by decide
    have hspace : ' ' ∉ name := fun hmem =>
      absurd (Name.isWordChar_of_isIdentifier hname ' ' hmem) (by decide)
    obtain ⟨htype, -⟩ := (List.append_cons_inj_of_notMem (hfront _ hnumber) hspace).mp heq
    rw [htype]

end Parameter

namespace Definition

open Parameter (Declares)

variable {first second : Definition} {parameters others : List Parameter}

theorem overload_eq_iff_typesText (howner : first.owner = second.owner)
    (hname : first.name = second.name) (hconst : first.isConst = second.isConst) :
    first.overload = second.overload ↔ first.typesText = second.typesText := by
  have hmark : first.constMark = second.constMark := by rw [constMark, constMark, hconst]
  rw [overload_eq, overload_eq, howner, hname, hmark]
  simp

theorem typesText_ne_nil (hne : first.parameterTypes ≠ []) (h : [] ∉ first.parameterTypes) :
    first.typesText ≠ [] := by
  unfold typesText
  obtain ⟨type, types, htypes⟩ := List.exists_cons_of_ne_nil hne
  rw [htypes] at h ⊢
  obtain ⟨tail, hjoin, -⟩ := Text.exists_joinWith_cons [','] type types
  rw [hjoin]
  intro hempty
  exact h (by simp [(List.append_eq_nil_iff.mp hempty).1])

/-- Lists of types are told apart in the key, if no type is missing. -/
theorem typesText_eq_iff (hfirst : [] ∉ first.parameterTypes)
    (hsecond : [] ∉ second.parameterTypes) :
    first.typesText = second.typesText ↔ first.parameterTypes = second.parameterTypes := by
  refine ⟨fun htext => ?_, fun htypes => by rw [typesText, typesText, htypes]⟩
  by_cases hnone : first.parameterTypes = []
  · have hempty : second.typesText = [] := by
      rw [← htext, typesText, hnone]
      rfl
    rw [hnone]
    by_contra hne
    exact typesText_ne_nil (Ne.symm hne) hsecond hempty
  · have hnone' : second.parameterTypes ≠ [] := by
      intro hnil
      apply typesText_ne_nil hnone hfirst
      rw [htext, typesText, hnil]
      rfl
    rw [← splitOutside_joinWith_parameterTypes hnone,
      ← splitOutside_joinWith_parameterTypes hnone']
    exact congrArg (Text.splitOutside · ',') htext

theorem nil_not_mem_parameterTypes (h : Declares parameters first.paramList) :
    [] ∉ first.parameterTypes := by
  rw [parameterTypes_of_declares h]
  intro hmem
  obtain ⟨parameter, hparameter, htight⟩ := List.mem_map.mp hmem
  exact ParameterType.tight_ne_nil (Parameter.kept_ne_nil (h.proper parameter hparameter)) htight

/-- What is kept of lists of firm parameters tells their types. -/
theorem map_tight_type_eq_of_kept (hproper : ∀ parameter ∈ parameters, parameter.IsProper)
    (hproper' : ∀ parameter ∈ others, parameter.IsProper)
    (hfirm : ∀ parameter ∈ parameters ++ others, parameter.IsFirm)
    (h : (parameters.map fun parameter => ParameterType.tight parameter.kept) =
      others.map fun parameter => ParameterType.tight parameter.kept) :
    (parameters.map fun parameter => ParameterType.tight parameter.type) =
      others.map fun parameter => ParameterType.tight parameter.type := by
  induction parameters generalizing others with
  | nil =>
      cases others with
      | nil => rfl
      | cons _ _ => cases h
  | cons parameter rest ih =>
      cases others with
      | nil => cases h
      | cons other rest' =>
          obtain ⟨hkept, hrest⟩ := List.cons.inj h
          obtain ⟨hhead, htail⟩ := List.forall_mem_cons.mp hproper
          obtain ⟨hhead', htail'⟩ := List.forall_mem_cons.mp hproper'
          have htype := Parameter.tight_type_eq_of_kept hhead hhead' (hfirm _ (by simp))
            (hfirm _ (by simp)) hkept
          have htypes := ih htail htail' (fun later hlater => hfirm later (by
            rcases List.mem_append.mp hlater with hmem | hmem <;> simp [hmem])) hrest
          rw [List.map_cons, List.map_cons, htype, htypes]

/-- Overloads that differ in their parameters only have one key exactly if the same is kept of these
parameters. In particular, if each parameter has a name or a last word that is not taken for one,
the types can be told from the key, and no file drops one of the two for the other. -/
theorem overload_eq_iff_of_declares (hfirst : Declares parameters first.paramList)
    (hsecond : Declares others second.paramList) (howner : first.owner = second.owner)
    (hname : first.name = second.name) (hconst : first.isConst = second.isConst) :
    (first.overload = second.overload ↔
      (parameters.map fun parameter => ParameterType.tight parameter.kept) =
        others.map fun parameter => ParameterType.tight parameter.kept) ∧
    ((∀ parameter ∈ parameters ++ others, parameter.IsFirm) →
      (parameters.map fun parameter => ParameterType.tight parameter.type) ≠
        (others.map fun parameter => ParameterType.tight parameter.type) →
      first.overload ≠ second.overload ∧
        ∀ (namer : FileNaming) (config : Config),
          Placement.collides (.ofClassified namer (config.classified second))
            (.ofClassified namer (config.classified first)) = false) := by
  have hiff : first.overload = second.overload ↔
      (parameters.map fun parameter => ParameterType.tight parameter.kept) =
        others.map fun parameter => ParameterType.tight parameter.kept := by
    rw [overload_eq_iff_typesText howner hname hconst,
      typesText_eq_iff (nil_not_mem_parameterTypes hfirst) (nil_not_mem_parameterTypes hsecond),
      parameterTypes_of_declares hfirst, parameterTypes_of_declares hsecond]
  refine ⟨hiff, fun hfirm hdiffer => ?_⟩
  have hkeys : first.overload ≠ second.overload := fun hsame =>
    hdiffer (map_tight_type_eq_of_kept hfirst.proper hsecond.proper hfirm (hiff.mp hsame))
  refine ⟨hkeys, fun namer config => ?_⟩
  have hkeys' : (Placement.ofClassified namer (config.classified second)).key ≠
      (Placement.ofClassified namer (config.classified first)).key := hkeys.symm
  simp [Placement.collides, hkeys']

/-- A definition with some parameters, of which the overload can be looked at. -/
def ofParams (paramList : Text) : Definition where
  owner := ['F', 'o', 'o']
  name := ['f']
  paramList
  isConst := false
  comment := []
  head := []
  body := ['{', '}']
  start := 0
  line := 1

/-- The last word of `unsigned long long` is taken for a name, so it collides with `unsigned long`;
with names, types that differ are told apart. -/
theorem overload_eq_iff_of_declares_numbers :
    (ofParams "unsigned long").overload = (ofParams "unsigned long long").overload ∧
      (ofParams "const Text &a, long  b = 3").overload ≠
        (ofParams "const Text &a, unsigned b").overload := by
  have hlong : Declares [{ type := "unsigned long" }] (ofParams "unsigned long").paramList :=
    ⟨by decide, by simp, fun _ => ⟨by decide, ["unsigned long"],
      .cons ⟨"unsigned long", by decide, by decide⟩ .nil, rfl⟩⟩
  have hlonger : Declares [{ type := "unsigned long long" }]
      (ofParams "unsigned long long").paramList :=
    ⟨by decide, by simp, fun _ => ⟨by decide, ["unsigned long long"],
      .cons ⟨"unsigned long long", by decide, by decide⟩ .nil, rfl⟩⟩
  have hvalue : Declares
      [{ type := "const Text &", name := "a" }, { type := "long", name := "b", value := " 3" }]
      (ofParams "const Text &a, long  b = 3").paramList :=
    ⟨by decide, by simp, fun _ => ⟨by decide, ["const Text &a", " long  b = 3"],
      .cons ⟨"const Text &a", by decide, by decide⟩
        (.cons ⟨" long  b ", by decide, by decide⟩ .nil), rfl⟩⟩
  have hplain : Declares
      [{ type := "const Text &", name := "a" }, { type := "unsigned", name := "b" }]
      (ofParams "const Text &a, unsigned b").paramList :=
    ⟨by decide, by simp, fun _ => ⟨by decide, ["const Text &a", " unsigned b"],
      .cons ⟨"const Text &a", by decide, by decide⟩
        (.cons ⟨" unsigned b", by decide, by decide⟩ .nil), rfl⟩⟩
  refine ⟨?_, ?_⟩
  · exact (overload_eq_iff_of_declares hlong hlonger (by decide) (by decide)
      (by decide)).1.mpr (by decide)
  · have htold := (overload_eq_iff_of_declares hvalue hplain (by decide) (by decide) (by decide)).2
    exact (htold (by decide) (by decide)).1

end Definition

end MemberSplit
