import MemberSplit.Proofs.Definition.NameCut
import MemberSplit.Proofs.Definition.ParameterType

/-!
# Parameters as they are declared

A parameter has a type, and can have a name and a default value. It can be written with any white
space between its words. What is read from the text is its type, but there are two exceptions: a
name behind a lone `unsigned` or the like is kept, because it looks like part of the type, and the
last word of a type without a name is dropped if it looks like a name.
-/

namespace MemberSplit

/-- A parameter of a function. -/
structure Parameter where
  /-- The type, with single spaces. -/
  type : Text
  name : Option Text := none
  /-- The default value, as it is written behind the equals sign. -/
  value : Option Text := none
  deriving DecidableEq, Repr

namespace Parameter

open ParameterType (EndsPlain endsType looseFront? openWords withoutName)

/-- Words in front of a number type that can be a type on their own. -/
def numberWords : List Text :=
  ["unsigned", "signed", "long", "short"].map String.toList

/-- Words that can follow one of those in a type; none of them is a name. -/
def typeWords : List Text :=
  ["int", "char", "short", "long", "double", "unsigned", "signed", "const", "volatile"].map
    String.toList

/-- The parameter is as in a language in which types and names are different words. -/
structure IsProper (parameter : Parameter) : Prop where
  type_ne_nil : parameter.type ≠ []
  /-- The type is not that of an array. -/
  endsPlain : EndsPlain parameter.type
  closed : Text.bracketDepth parameter.type = 0
  uncut : Text.Uncut ',' 0 parameter.type ∧ Text.Uncut '=' 0 parameter.type
  /-- A qualifier or a keyword alone is no type. -/
  whole : parameter.type ∈ openWords → parameter.type ∈ numberWords
  number : ∀ front ∈ numberWords, ∀ word ∈ Text.dropLead? parameter.type (front ++ [' ']),
    Name.isIdentifier word = true → word ∈ typeWords
  name : ∀ name ∈ parameter.name, Name.isIdentifier name = true ∧ name ∉ typeWords
  /-- The default value closes the brackets that it opens, and is no list. -/
  value : ∀ value ∈ parameter.value, Text.bracketDepth value = 0 ∧ Text.Uncut ',' 0 value

instance (parameter : Parameter) : Decidable parameter.IsProper :=
  decidable_of_iff
    (parameter.type ≠ [] ∧ EndsPlain parameter.type ∧ Text.bracketDepth parameter.type = 0 ∧
      (Text.Uncut ',' 0 parameter.type ∧ Text.Uncut '=' 0 parameter.type) ∧
      (parameter.type ∈ openWords → parameter.type ∈ numberWords) ∧
      (∀ front ∈ numberWords, ∀ word ∈ Text.dropLead? parameter.type (front ++ [' ']),
        Name.isIdentifier word = true → word ∈ typeWords) ∧
      (∀ name ∈ parameter.name, Name.isIdentifier name = true ∧ name ∉ typeWords) ∧
      ∀ value ∈ parameter.value, Text.bracketDepth value = 0 ∧ Text.Uncut ',' 0 value)
    ⟨fun ⟨hne, hends, hclosed, huncut, hwhole, hnumber, hname, hvalue⟩ =>
        ⟨hne, hends, hclosed, huncut, hwhole, hnumber, hname, hvalue⟩,
      fun ⟨hne, hends, hclosed, huncut, hwhole, hnumber, hname, hvalue⟩ =>
        ⟨hne, hends, hclosed, huncut, hwhole, hnumber, hname, hvalue⟩⟩

/-- The parameter without its default value can be written like this, with single spaces. Between
a type that ends in a mark and the name there need not be a space. -/
def Spells (parameter : Parameter) (declared : Text) : Prop :=
  match parameter.name with
  | none => declared = parameter.type
  | some name => declared = parameter.type ++ ' ' :: name ∨
      parameter.type.getLast?.any endsType = true ∧ declared = parameter.type ++ name

instance (declared : Text) : ∀ parameter : Parameter, Decidable (parameter.Spells declared)
  | ⟨type, none, _⟩ => inferInstanceAs (Decidable (declared = type))
  | ⟨type, some name, _⟩ => inferInstanceAs (Decidable (declared = type ++ ' ' :: name ∨
      type.getLast?.any endsType = true ∧ declared = type ++ name))

/-- The parameter can be written like this. -/
def IsWritten (parameter : Parameter) (text : Text) : Prop :=
  ∃ declared, parameter.Spells (Text.collapseBlanks declared) ∧
    text = declared ++ parameter.value.elim [] fun value => '=' :: value

/-- What is kept of a parameter that is written. -/
def kept (parameter : Parameter) : Text :=
  match parameter.name with
  | none => (looseFront? parameter.type).getD parameter.type
  | some name =>
    if openWords.contains parameter.type then parameter.type ++ ' ' :: name else parameter.type

variable {parameter : Parameter} {declared text : Text}

/-- The name is cut off from a parameter that has one. -/
theorem withoutName_of_spells (hproper : parameter.IsProper) (h : parameter.Spells declared) :
    withoutName declared = parameter.kept := by
  unfold Spells at h
  unfold kept
  cases hname : parameter.name with
  | none =>
      rw [hname] at h
      rw [h]
      exact ParameterType.withoutName_eq hproper.endsPlain
  | some name =>
      rw [hname] at h
      have hidentifier := (hproper.name name hname).1
      have htrim := ParameterType.trimEnd_of_endsPlain hproper.endsPlain
      have htype : parameter.type.isEmpty = false := by simp [hproper.type_ne_nil]
      rcases h with rfl | ⟨hends, rfl⟩
      · have htrim' : Text.trimEnd (parameter.type ++ [' ']) = parameter.type := by
          rw [Text.trimEnd_append_blanks _ (List.forall_mem_singleton.mpr rfl), htrim]
        have hcut := ParameterType.withoutName_append hidentifier (parameter.type ++ [' '])
          (by rw [List.getLast?_concat]; rfl)
        rw [htrim', htype, Bool.false_or, List.append_assoc] at hcut
        exact hcut
      · rw [ParameterType.withoutName_append hidentifier _ hends, htrim, htype, Bool.false_or,
          ParameterType.not_mem_openWords hends]
        rfl

/-- A parameter has the brackets, and the separators outside them, of its type only. -/
theorem filter_of_spells (hproper : parameter.IsProper)
    (h : parameter.Spells (Text.collapseBlanks declared)) (separator : Char)
    (hseparator : separator ∈ [',', '=']) :
    declared.filter (Text.isCutMark separator) =
      parameter.type.filter (Text.isCutMark separator) := by
  have hkinds : isBlank separator = false ∧ isWordChar separator = false := by
    simp only [List.mem_cons, List.not_mem_nil, or_false] at hseparator
    rcases hseparator with rfl | rfl <;> decide
  have hblank : ∀ c, isBlank c = true → Text.isCutMark separator c = false := fun _ =>
    Text.isCutMark_eq_false (by decide) hkinds.1
  have hword : ∀ c, isWordChar c = true → Text.isCutMark separator c = false := fun _ =>
    Text.isCutMark_eq_false (by decide) hkinds.2
  rw [← Text.filter_collapseBlanks hblank]
  unfold Spells at h
  cases hname : parameter.name with
  | none =>
      rw [hname] at h
      rw [h]
  | some name =>
      rw [hname] at h
      have hletters : name.filter (Text.isCutMark separator) = [] :=
        Text.filter_eq_nil_of_all fun c hc =>
          hword c (Name.isWordChar_of_isIdentifier (hproper.name name hname).1 c hc)
      rcases h with heq | ⟨-, heq⟩
      · have hspace : Text.isCutMark separator ' ' = false := hblank ' ' rfl
        rw [heq, List.filter_append, List.filter_cons_of_neg (by simp [hspace]), hletters,
          List.append_nil]
      · rw [heq, List.filter_append, hletters, List.append_nil]

theorem uncut_of_spells (hproper : parameter.IsProper)
    (h : parameter.Spells (Text.collapseBlanks declared)) (separator : Char)
    (hseparator : separator ∈ [',', '=']) : Text.Uncut separator 0 declared := by
  rw [← Text.uncut_filter_isCutMark, filter_of_spells hproper h separator hseparator,
    Text.uncut_filter_isCutMark]
  simp only [List.mem_cons, List.not_mem_nil, or_false] at hseparator
  rcases hseparator with rfl | rfl
  · exact hproper.uncut.1
  · exact hproper.uncut.2

theorem bracketDepth_of_spells (hproper : parameter.IsProper)
    (h : parameter.Spells (Text.collapseBlanks declared)) : Text.bracketDepth declared = 0 := by
  rw [← Text.bracketDepth_filter_isCutMark ',', filter_of_spells hproper h ',' (by simp),
    Text.bracketDepth_filter_isCutMark]
  exact hproper.closed

/-- The default value is dropped. -/
theorem front_of_isWritten (hproper : parameter.IsProper)
    (h : parameter.Spells (Text.collapseBlanks declared)) :
    ParameterType.front (declared ++ parameter.value.elim [] fun value => '=' :: value) =
      declared := by
  have huncut := uncut_of_spells hproper h '=' (by simp)
  rw [ParameterType.front, Text.splitOutside, Text.splitOutsideFrom_append huncut,
    bracketDepth_of_spells hproper h]
  cases parameter.value with
  | none => simp [Text.splitOutsideFrom, Text.foldr_consPiece]
  | some value => simp [Text.splitOutsideFrom, Text.foldr_consPiece, Text.bracketDelta]

theorem ofParam_eq (param : Text) : ParameterType.ofParam param =
    ParameterType.tight (withoutName (Text.collapseBlanks (ParameterType.front param))) := rfl

/-- The type of a written parameter does not depend on how it is written. -/
theorem ofParam_of_isWritten (hproper : parameter.IsProper) (h : parameter.IsWritten text) :
    ParameterType.ofParam text = ParameterType.tight parameter.kept := by
  obtain ⟨declared, hspells, rfl⟩ := h
  rw [ofParam_eq, front_of_isWritten hproper hspells, withoutName_of_spells hproper hspells]

/-- A written parameter is one piece of a list. -/
theorem uncut_of_isWritten (hproper : parameter.IsProper) (h : parameter.IsWritten text) :
    Text.Uncut ',' 0 text ∧ Text.bracketDepth text = 0 := by
  obtain ⟨declared, hspells, rfl⟩ := h
  have huncut := uncut_of_spells hproper hspells ',' (by simp)
  have hdepth := bracketDepth_of_spells hproper hspells
  cases hvalue : parameter.value with
  | none => simpa using ⟨huncut, hdepth⟩
  | some value =>
      obtain ⟨hdepth', huncut'⟩ := hproper.value value hvalue
      have hequals : Text.bracketDelta '=' = 0 := by decide
      rw [Text.uncut_append_iff, hdepth, Text.bracketDepth_append, hdepth]
      simp [Text.Uncut, hequals, huncut, huncut', hdepth']

/-- A parameter is not blank, however it is written. -/
theorem exists_mem_of_spells (hproper : parameter.IsProper)
    (h : parameter.Spells (Text.collapseBlanks declared)) : ∃ c ∈ declared, isBlank c = false := by
  have hplain : EndsPlain (Text.collapseBlanks declared) ∧ Text.collapseBlanks declared ≠ [] := by
    unfold Spells at h
    cases hname : parameter.name with
    | none =>
        rw [hname] at h
        rw [h]
        exact ⟨hproper.endsPlain, hproper.type_ne_nil⟩
    | some name =>
        rw [hname] at h
        have hidentifier := (hproper.name name hname).1
        rcases h with heq | ⟨-, heq⟩
        · rw [heq, ← List.singleton_append, ← List.append_assoc]
          exact ⟨ParameterType.endsPlain_append_of_isIdentifier hidentifier _, by simp⟩
        · rw [heq]
          exact ⟨ParameterType.endsPlain_append_of_isIdentifier hidentifier _,
            by simp [hproper.type_ne_nil]⟩
  obtain ⟨hends, hne⟩ := hplain
  have hlast := hends _ (List.getLast?_eq_some_getLast hne)
  have hmem : (Text.collapseBlanks declared).getLast hne ∈
      (Text.collapseBlanks declared).filter fun c => !isBlank c :=
    List.mem_filter.mpr ⟨List.getLast_mem hne, by simp [hlast.1]⟩
  rw [Text.filter_collapseBlanks (by simp)] at hmem
  obtain ⟨hmem, hvisible⟩ := List.mem_filter.mp hmem
  exact ⟨_, hmem, by simpa using hvisible⟩

/-- The text is a list of the parameters, each of which is proper. A lone `void` is no parameter. -/
structure Declares (parameters : List Parameter) (paramList : Text) : Prop where
  proper : ∀ parameter ∈ parameters, parameter.IsProper
  empty : parameters = [] → paramList.trim = [] ∨ paramList.trim = "void".toList
  list : parameters ≠ [] → paramList.trim ≠ "void".toList ∧
    ∃ texts, List.Forall₂ IsWritten parameters texts ∧ paramList = Text.joinWith [','] texts

/-- The parameters of a list are told apart and give their types. -/
theorem splitOutside_of_forall₂ {parameters : List Parameter} {texts : List Text}
    (hproper : ∀ parameter ∈ parameters, parameter.IsProper) (hne : parameters ≠ [])
    (h : List.Forall₂ IsWritten parameters texts) :
    Text.splitOutside (Text.joinWith [','] texts) ',' = texts ∧
      texts.map ParameterType.ofParam =
        parameters.map fun parameter => ParameterType.tight parameter.kept := by
  have hall : (∀ text ∈ texts, Text.Uncut ',' 0 text ∧ Text.bracketDepth text = 0) ∧
      texts.map ParameterType.ofParam =
        parameters.map fun parameter => ParameterType.tight parameter.kept := by
    clear hne
    induction h with
    | nil => simp
    | cons hfirst _ ih =>
        obtain ⟨hhead, htail⟩ := List.forall_mem_cons.mp hproper
        obtain ⟨huncut, htypes⟩ := ih htail
        refine ⟨List.forall_mem_cons.mpr ⟨uncut_of_isWritten hhead hfirst, huncut⟩, ?_⟩
        rw [List.map_cons, List.map_cons, htypes, ofParam_of_isWritten hhead hfirst]
  have htexts : texts ≠ [] := by
    rintro rfl
    cases h
    exact hne rfl
  exact ⟨Text.splitOutsideFrom_joinWith (by decide) (Text.areCut_of_forall htexts hall.1), hall.2⟩

/-- A list of parameters is not blank. -/
theorem trim_ne_nil_of_forall₂ {parameters : List Parameter} {texts : List Text}
    (hproper : ∀ parameter ∈ parameters, parameter.IsProper) (hne : parameters ≠ [])
    (h : List.Forall₂ IsWritten parameters texts) :
    Text.trim (Text.joinWith [','] texts) ≠ [] := by
  intro hblank
  have hnone : (Text.joinWith [','] texts).filter (fun c => !isBlank c) = [] := by
    rw [← Text.filter_dropWhile (fun c (hc : isBlank c = true) => by simp [hc]), ← Text.trimStart,
      ← Text.filter_trimEnd (by simp), ← Text.trim, hblank]
    rfl
  cases h with
  | nil => exact hne rfl
  | cons hfirst hrest =>
      obtain ⟨declared, hspells, rfl⟩ := hfirst
      obtain ⟨c, hmem, hvisible⟩ :=
        exists_mem_of_spells (hproper _ List.mem_cons_self) hspells
      obtain ⟨tail, hjoin, -⟩ := Text.exists_joinWith_cons [','] (declared ++ _) _
      rw [hjoin, List.filter_eq_nil_iff] at hnone
      exact hnone c (by simp [hmem]) (by simp [hvisible])

end Parameter

namespace Definition

open Parameter (Declares)

/-- The types of a definition are what is kept of its parameters. -/
theorem parameterTypes_of_declares {definition : Definition} {parameters : List Parameter}
    (h : Declares parameters definition.paramList) :
    definition.parameterTypes =
      parameters.map fun parameter => ParameterType.tight parameter.kept := by
  unfold parameterTypes
  by_cases hnone : parameters = []
  · subst hnone
    rcases h.empty rfl with htrim | htrim <;> simp [htrim]
  · obtain ⟨hvoid, texts, hwritten, hlist⟩ := h.list hnone
    obtain ⟨hsplit, htypes⟩ := Parameter.splitOutside_of_forall₂ h.proper hnone hwritten
    have htrim := Parameter.trim_ne_nil_of_forall₂ h.proper hnone hwritten
    rw [hlist] at hvoid ⊢
    have hparams : (List.isEmpty (Text.trim (Text.joinWith [','] texts)) ||
        decide (Text.trim (Text.joinWith [','] texts) = "void".toList)) = false :=
      Bool.or_eq_false_iff.mpr ⟨by simp [htrim], decide_eq_false hvoid⟩
    simp only [hparams, hsplit, htypes]
    rfl

end Definition

end MemberSplit
