import MemberSplit.Classification
import MemberSplit.Proofs.Definition.BaseType
import MemberSplit.Proofs.Definition.Collision
import MemberSplit.Proofs.Definition.LastToken

/-!
# The variant type of an overload

The bare type of the first parameter decides on the file of an overload of the dispatch method. It
is the name of the type, whatever words stand in front of it and whatever qualifiers and marks
behind it, with or without a name of the parameter. There is one exception: an unnamed parameter
that ends with the name of its type loses this name, because it looks like that of the parameter,
unless nothing or a single `const`, `volatile`, `struct` or `class` stands in front.
-/

namespace MemberSplit

namespace Name

/-- The text is an identifier, perhaps with a scope in front of it. -/
def IsQualified (text : Text) : Prop :=
  ∃ (lead : Text) (scope : List Text) (name : Text), lead ∈ [[], "::".toList] ∧
    (∀ part ∈ scope, isIdentifier part = true) ∧ isIdentifier name = true ∧
    text = lead ++ (scope.flatMap fun part => part ++ "::".toList) ++ name

/-- In front of the last identifier there are word characters and colons, the last one a colon. -/
theorem IsQualified.exists_append {text : Text} (h : IsQualified text) :
    ∃ scope name, text = scope ++ name ∧ isIdentifier name = true ∧
      (∀ c ∈ scope, isWordChar c = true ∨ c = ':') ∧
      (scope = [] ∨ scope.getLast? = some ':') := by
  obtain ⟨lead, parts, name, hlead, hparts, hname, rfl⟩ := h
  have hcolons : ∀ c ∈ "::".toList, isWordChar c = true ∨ c = ':' := by simp
  refine ⟨_, name, rfl, hname, ?_, ?_⟩
  · intro c hc
    rcases List.mem_append.mp hc with hc | hc
    · rcases List.mem_pair.mp hlead with rfl | rfl
      · cases hc
      · exact hcolons c hc
    · obtain ⟨part, hpart, hmem⟩ := List.mem_flatMap.mp hc
      rcases List.mem_append.mp hmem with hmem | hmem
      · exact .inl (isWordChar_of_isIdentifier (hparts part hpart) c hmem)
      · exact hcolons c hmem
  · rcases List.eq_nil_or_concat parts with rfl | ⟨others, last, rfl⟩
    · rcases List.mem_pair.mp hlead with rfl | rfl
      · exact .inl rfl
      · exact .inr rfl
    · right
      simp [List.getLast?_append]

end Name

/-- The name of a type with what stands around it in the declaration of a parameter. -/
structure DecoratedType where
  /-- The words in front of the name. -/
  lead : List Text
  type : Text
  /-- The qualifiers and marks behind the name. -/
  marks : List Text
  /-- The name of the parameter. -/
  name : Option Text
  deriving DecidableEq, Repr

namespace DecoratedType

open ParameterType (tokens leadWords openWords decorations isReference isWord endsType EndsPlain
  withoutName)

/-- The words and marks of the declaration. -/
def tokens (decorated : DecoratedType) : List Text :=
  decorated.lead ++ decorated.type :: decorated.marks ++ decorated.name.toList

/-- The parts of the declaration are of their kinds, and the type is not named by a keyword. -/
structure IsProper (decorated : DecoratedType) : Prop where
  lead : ∀ word ∈ decorated.lead, word ∈ leadWords
  type : Name.IsQualified decorated.type
  notKeyword : decorated.type ∉ leadWords ++ openWords ++ ["void".toList]
  marks : ∀ mark ∈ decorated.marks, mark ∈ decorations
  name : ∀ name ∈ decorated.name, Name.isIdentifier name = true

/-- The name of the type is taken for that of the parameter: it is an identifier and the last token,
and in front of it stands something else than a single word that goes on. -/
def IsMistaken (decorated : DecoratedType) : Prop :=
  decorated.name = none ∧ decorated.marks = [] ∧ Name.isIdentifier decorated.type = true ∧
    decorated.lead ≠ [] ∧ ∀ word ∈ openWords, decorated.lead ≠ [word]

instance (decorated : DecoratedType) : Decidable decorated.IsMistaken :=
  inferInstanceAs (Decidable (_ ∧ _ ∧ _ ∧ _ ∧ _))

variable {decorated : DecoratedType} {declared declaration : Text}

theorem IsProper.ne_of_mem (h : decorated.IsProper) {word : Text}
    (hword : word ∈ leadWords ++ openWords ++ ["void".toList]) : decorated.type ≠ word := by
  rintro rfl
  exact h.notKeyword hword

theorem IsProper.chars_of_type (h : decorated.IsProper) :
    ∀ c ∈ decorated.type, isWordChar c = true ∨ c = ':' := by
  obtain ⟨scope, name, htype, hname, hscope, -⟩ := h.type.exists_append
  intro c hc
  rw [htype] at hc
  rcases List.mem_append.mp hc with hc | hc
  · exact hscope c hc
  · exact .inl (Name.isWordChar_of_isIdentifier hname c hc)

/-- A declaration has word characters, colons and marks. -/
theorem IsProper.chars_of_tokens (h : decorated.IsProper) {token : Text}
    (htoken : token ∈ decorated.tokens) {c : Char} (hc : c ∈ token) :
    isWordChar c = true ∨ c = ':' ∨ isReference c = true := by
  have hlead : (leadWords.all fun word => word.all isWordChar) = true := by decide +kernel
  have hmarks : (decorations.all fun mark => mark.all fun c => isWordChar c || isReference c) =
      true := by decide +kernel
  simp only [tokens, List.mem_append, List.mem_cons, Option.mem_toList] at htoken
  rcases htoken with (hmem | rfl | hmem) | hmem
  · exact .inl (List.all_eq_true.mp (List.all_eq_true.mp hlead token (h.lead token hmem)) c hc)
  · exact (h.chars_of_type c hc).imp id .inl
  · have hkind := List.all_eq_true.mp (List.all_eq_true.mp hmarks token (h.marks token hmem)) c hc
    exact (Bool.or_eq_true_iff.mp hkind).imp id .inr
  · exact .inl (Name.isWordChar_of_isIdentifier (h.name _ hmem) c hc)

theorem IsProper.isReference_of_type (h : decorated.IsProper) :
    ∀ c ∈ decorated.type, isReference c = false := by
  intro c hc
  rw [Bool.eq_false_iff]
  intro hmark
  have hkind := h.chars_of_type c hc
  rcases Bool.or_eq_true_iff.mp hmark with hmark | hmark <;> rw [eq_of_beq hmark] at hkind <;>
    exact absurd hkind (by decide)

theorem IsProper.isWord_type (h : decorated.IsProper) : isWord decorated.type = true := by
  simpa [isWord] using h.isReference_of_type

theorem IsProper.lead_append_ne (h : decorated.IsProper) (marks : List Text) {word : Text}
    (hword : word ∈ openWords) : decorated.lead ++ decorated.type :: marks ≠ [word] := by
  intro heq
  have htype : decorated.type ∈ [word] := by
    rw [← heq]
    simp
  exact h.ne_of_mem (by simp [hword]) (List.mem_singleton.mp htype)

section Cut

variable (hhead : declaration.head?.any isBlank = false)
  (hlast : declaration.getLast?.any isBlank = false) (hends : EndsPlain declaration)

include hlast hends in
/-- Without a name, the last qualifier is taken for one, but a mark is not. -/
theorem IsProper.exists_marks_of_concat (h : decorated.IsProper) {marks : List Text} {mark : Text}
    (hmarks : ∀ other ∈ marks ++ [mark], other ∈ decorations)
    (htokens : ParameterType.tokens declaration =
      decorated.lead ++ decorated.type :: marks ++ [mark]) :
    ∃ kept : List Text, (∀ other ∈ kept, other ∈ decorations) ∧
      ParameterType.tokens (withoutName declaration) =
        decorated.lead ++ decorated.type :: kept := by
  have hkinds : ∀ mark ∈ decorations,
      Name.isIdentifier mark = true ∨ mark = ['&'] ∨ mark = ['*'] := by decide
  have hmark : withoutName declaration = declaration →
      ∃ kept : List Text, (∀ other ∈ kept, other ∈ decorations) ∧
        ParameterType.tokens (withoutName declaration) =
          decorated.lead ++ decorated.type :: kept := by
    intro hself
    exact ⟨marks ++ [mark], hmarks, by rw [hself, htokens, List.append_assoc, List.cons_append]⟩
  rcases hkinds mark (hmarks mark (by simp)) with hname | rfl | rfl
  · refine ⟨marks, fun other hother => hmarks other (by simp [hother]), ?_⟩
    exact ParameterType.tokens_withoutName hname hlast (by simp)
      (fun word hword => h.lead_append_ne marks hword) htokens
  · exact hmark (ParameterType.withoutName_of_mark hends hlast (by decide) htokens)
  · exact hmark (ParameterType.withoutName_of_mark hends hlast (by decide) htokens)

include hhead hlast hends in
/-- A type that is the last token is kept, if it is not mistaken for a name. -/
theorem IsProper.withoutName_of_type (h : decorated.IsProper) (hname : decorated.name = none)
    (hmarks : decorated.marks = []) (hmistaken : ¬decorated.IsMistaken)
    (htokens : ParameterType.tokens declaration = decorated.lead ++ [decorated.type]) :
    withoutName declaration = declaration := by
  obtain ⟨scope, name, htype, hidentifier, -, hscope⟩ := h.type.exists_append
  rcases hscope with rfl | hscope
  · -- Without a scope the type looks like a name, so it depends on what stands in front.
    rw [List.nil_append] at htype
    rw [htype] at htokens
    by_cases hlead : decorated.lead = []
    · rw [hlead] at htokens
      exact ParameterType.withoutName_of_single hends hhead hlast hidentifier htokens
    · by_cases hopen : ∃ word ∈ openWords, decorated.lead = [word]
      · obtain ⟨word, hword, hlead⟩ := hopen
        rw [hlead] at htokens
        exact ParameterType.withoutName_of_mem_openWords hword hidentifier hhead hlast htokens
      · refine absurd ⟨hname, hmarks, htype ▸ hidentifier, hlead, ?_⟩ hmistaken
        exact fun word hword hsame => hopen ⟨word, hword, hsame⟩
  · rw [htype] at htokens
    exact ParameterType.withoutName_of_scope hends hlast hidentifier hscope htokens

include hhead hlast hends in
/-- What is kept of a declaration is the type with what decorates it, if the type is not mistaken
for a name. -/
theorem IsProper.exists_marks (h : decorated.IsProper) (hmistaken : ¬decorated.IsMistaken)
    (htokens : ParameterType.tokens declaration = decorated.tokens) :
    ∃ kept : List Text, (∀ mark ∈ kept, mark ∈ decorations) ∧
      ParameterType.tokens (withoutName declaration) =
        decorated.lead ++ decorated.type :: kept := by
  rw [tokens] at htokens
  cases hname : decorated.name with
  | some name =>
      rw [hname] at htokens
      exact ⟨decorated.marks, h.marks,
        ParameterType.tokens_withoutName (h.name name hname) hlast (by simp)
          (fun word hword => h.lead_append_ne decorated.marks hword) htokens⟩
  | none =>
      rw [hname, Option.toList_none, List.append_nil] at htokens
      rcases List.eq_nil_or_concat decorated.marks with hmarks | ⟨marks, mark, hmarks⟩
      · rw [hmarks] at htokens
        refine ⟨[], by simp, ?_⟩
        rw [h.withoutName_of_type hhead hlast hends hname hmarks hmistaken htokens, htokens]
      · rw [List.concat_eq_append] at hmarks
        rw [hmarks, ← List.cons_append, ← List.append_assoc] at htokens
        exact h.exists_marks_of_concat hlast hends (hmarks ▸ h.marks) htokens

include hlast in
/-- Only the words in front are kept of a type that is mistaken for a name. -/
theorem IsMistaken.tokens_withoutName (hmistaken : decorated.IsMistaken)
    (htokens : ParameterType.tokens declaration = decorated.tokens) :
    ParameterType.tokens (withoutName declaration) = decorated.lead := by
  obtain ⟨hname, hmarks, hidentifier, hlead, hopen⟩ := hmistaken
  rw [tokens, hname, hmarks, Option.toList_none, List.append_nil] at htokens
  exact ParameterType.tokens_withoutName hidentifier hlast hlead hopen htokens

end Cut

theorem IsProper.chars (h : decorated.IsProper)
    (htokens : ParameterType.tokens declared = decorated.tokens) :
    ∀ c ∈ declared, isBlank c = true ∨ isWordChar c = true ∨ c = ':' ∨ isReference c = true := by
  intro c hc
  cases hblank : isBlank c with
  | true => exact .inl rfl
  | false =>
      obtain ⟨token, htoken, hmem⟩ := ParameterType.exists_mem_tokens hc hblank
      rw [htokens] at htoken
      exact .inr (h.chars_of_tokens htoken hmem)

theorem IsProper.endsPlain (h : decorated.IsProper)
    (htokens : ParameterType.tokens declaration = decorated.tokens)
    (hlast : declaration.getLast?.any isBlank = false) : EndsPlain declaration := by
  intro c hc
  have hc' : declaration.getLast? = some c := hc
  rw [hc'] at hlast
  refine ⟨hlast, ?_⟩
  rintro rfl
  have hkind := h.chars htokens ']' (List.mem_of_getLast? hc')
  exact absurd hkind (by decide)

/-- A declaration has no bracket and no separator. -/
theorem IsProper.filter_isCutMark (h : decorated.IsProper)
    (htokens : ParameterType.tokens declared = decorated.tokens) {separator : Char}
    (hseparator : separator ∈ [',', '=']) : declared.filter (Text.isCutMark separator) = [] := by
  have hkinds : isBlank separator = false ∧ isWordChar separator = false ∧
      Text.isCutMark separator ':' = false ∧ Text.isCutMark separator '&' = false ∧
      Text.isCutMark separator '*' = false := by
    simp only [List.mem_cons, List.not_mem_nil, or_false] at hseparator
    rcases hseparator with rfl | rfl <;> decide
  obtain ⟨hblank, hword, hcolon, hreference, hpointer⟩ := hkinds
  refine Text.filter_eq_nil_of_all fun c hc => ?_
  rcases h.chars htokens c hc with hkind | hkind | rfl | hkind
  · exact Text.isCutMark_eq_false (by decide) hblank hkind
  · exact Text.isCutMark_eq_false (by decide) hword hkind
  · exact hcolon
  · rcases Bool.or_eq_true_iff.mp hkind with hmark | hmark <;> rw [eq_of_beq hmark]
    · exact hreference
    · exact hpointer

theorem IsProper.type_ne_nil (h : decorated.IsProper) : decorated.type ≠ [] := by
  obtain ⟨scope, name, htype, hname, -, -⟩ := h.type.exists_append
  rw [htype]
  apply List.append_ne_nil_of_right_ne_nil
  rintro rfl
  cases hname

theorem IsProper.tokens_type (h : decorated.IsProper) :
    ParameterType.tokens decorated.type = [decorated.type] := by
  have hplain : ∀ c ∈ decorated.type, ParameterType.isPlain c = true := by
    intro c hc
    have hblank : isBlank c = false := by
      rw [Bool.eq_false_iff]
      intro hblank
      rcases h.chars_of_type c hc with hword | rfl
      · rw [isWordChar_of_isBlank hblank] at hword
        cases hword
      · exact absurd hblank (by decide)
    simp [ParameterType.isPlain, hblank, h.isReference_of_type c hc]
  rw [ParameterType.tokens_of_isPlain hplain, if_neg h.type_ne_nil]

/-- The bare type of what is kept is the name of the type, if this is not mistaken for a name. -/
theorem IsProper.base_eq_iff (h : decorated.IsProper)
    (htokens : ParameterType.tokens declared = decorated.tokens) :
    ParameterType.base (ParameterType.tight (withoutName (Text.collapseBlanks declared))) =
      decorated.type ↔ ¬decorated.IsMistaken := by
  obtain ⟨hhead, hlast⟩ := Text.collapseBlanks_ends declared
  rw [← ParameterType.tokens_collapseBlanks] at htokens
  have hnotLead : decorated.type ∉ leadWords := fun hmem => h.notKeyword (by simp [hmem])
  refine ⟨fun hbase hmistaken => ?_, fun hmistaken => ?_⟩
  · -- Only words that are no types are left, and the bare type is one of them or empty.
    refine ParameterType.base_ne_of_tokens ?_ h.tokens_type hnotLead hbase
    rw [ParameterType.tokens_tight, hmistaken.tokens_withoutName hlast htokens]
    exact h.lead
  · obtain ⟨kept, hkept, hsplit⟩ :=
      h.exists_marks hhead hlast (h.endsPlain htokens hlast) hmistaken htokens
    rw [← ParameterType.tokens_tight] at hsplit
    exact ParameterType.base_of_tokens h.lead h.isWord_type hnotLead hkept hsplit

end DecoratedType

namespace Definition

open ParameterType (tokens withoutName tight)

variable {definition : Definition} {decorated : DecoratedType} {declared rest : Text}

/-- A declaration with a comma behind it is the first piece of a list; a default value is a part of
the piece. -/
theorem exists_first_piece (hcomma : declared.filter (Text.isCutMark ',') = [])
    (hrest : ∀ c ∈ rest.head?, c = ',' ∨ c = '=') :
    ∃ value, (Text.splitOutside (declared ++ rest) ',').head? = some (declared ++ value) ∧
      ∀ c ∈ value.head?, c = '=' := by
  rw [Text.head?_splitOutside_append hcomma]
  cases rest with
  | nil => exact ⟨[], rfl, by simp⟩
  | cons c others =>
      rcases hrest c rfl with rfl | rfl
      · rw [Text.head?_splitOutside_cons (by decide)]
        exact ⟨[], rfl, by simp⟩
      · obtain ⟨piece, pieces, hpieces⟩ := Text.exists_cons_of_splitOutsideFrom ',' 0 others
        have hequals : Text.splitOutside ('=' :: others) ',' = ('=' :: piece) :: pieces := by
          rw [Text.splitOutside, Text.splitOutsideFrom, if_neg (by decide)]
          exact congrArg (Text.consPiece '=') hpieces
        rw [hequals]
        exact ⟨'=' :: piece, rfl, by simp⟩

/-- A declaration ends in front of its default value. -/
theorem front_append {value : Text} (hequals : declared.filter (Text.isCutMark '=') = [])
    (hvalue : ∀ c ∈ value.head?, c = '=') : ParameterType.front (declared ++ value) = declared := by
  have hhead : (Text.splitOutside value '=').head? = some [] := by
    cases value with
    | nil => rfl
    | cons c others =>
        obtain rfl := hvalue c rfl
        exact Text.head?_splitOutside_cons (by decide) others
  rw [ParameterType.front, List.headD_eq_head?_getD, Text.head?_splitOutside_append hequals, hhead]
  simp

/-- A list that begins with a declaration is not just `void`. -/
theorem exists_token_ne_void (hproper : decorated.IsProper)
    (hlist : definition.paramList = declared ++ rest) (hrest : ∀ c ∈ rest.head?, c = ',' ∨ c = '=')
    (htokens : tokens declared = decorated.tokens) :
    ∃ token ∈ tokens (Text.trim definition.paramList), token ≠ "void".toList := by
  rw [ParameterType.tokens_trim, hlist]
  cases rest with
  | nil =>
      rw [List.append_nil, htokens]
      exact ⟨decorated.type, by simp [DecoratedType.tokens], hproper.ne_of_mem (by simp)⟩
  | cons c others =>
      have hseparator : isBlank c = false ∧ c ∉ "void".toList := by
        rcases hrest c rfl with rfl | rfl <;> decide
      obtain ⟨token, htoken, hmem⟩ :=
        ParameterType.exists_mem_tokens (List.mem_append_right declared List.mem_cons_self)
          hseparator.1
      refine ⟨token, htoken, ?_⟩
      rintro rfl
      exact hseparator.2 hmem

/-- The type of the first parameter is read from its declaration, up to a comma or a default
value. -/
theorem head?_parameterTypes (hproper : decorated.IsProper)
    (hlist : definition.paramList = declared ++ rest) (hrest : ∀ c ∈ rest.head?, c = ',' ∨ c = '=')
    (htokens : tokens declared = decorated.tokens) :
    definition.parameterTypes.head? =
      some (tight (withoutName (Text.collapseBlanks declared))) := by
  obtain ⟨value, hpiece, hvalue⟩ :=
    exists_first_piece (hproper.filter_isCutMark htokens (by simp)) hrest
  have hfront := front_append (hproper.filter_isCutMark htokens (by simp)) hvalue
  have hparams : ((Text.trim definition.paramList).isEmpty ||
      decide (Text.trim definition.paramList = "void".toList)) = false := by
    obtain ⟨token, htoken, hother⟩ := exists_token_ne_void hproper hlist hrest htokens
    rw [Bool.or_eq_false_iff, decide_eq_false_iff_not]
    refine ⟨?_, fun hvoid => ?_⟩
    · rw [Bool.eq_false_iff, ne_eq, List.isEmpty_iff]
      intro hnil
      rw [hnil] at htoken
      cases htoken
    · have hword : tokens "void".toList = ["void".toList] := by decide
      rw [hvoid, hword, List.mem_singleton] at htoken
      exact hother htoken
  simp only [parameterTypes, hparams]
  rw [hlist, if_neg Bool.false_ne_true, List.head?_map, hpiece, Option.map_some,
    Parameter.ofParam_eq, hfront]

/-- The bare type of the first parameter is the name of its type, unless this is mistaken for the
name of the parameter. So a type that is not excluded decides on the file of an overload of the
dispatch method. -/
theorem baseType_eq_iff_of_tokens (hproper : decorated.IsProper)
    (hlist : definition.paramList = declared ++ rest) (hrest : ∀ c ∈ rest.head?, c = ',' ∨ c = '=')
    (htokens : tokens declared = decorated.tokens) :
    (definition.baseType? = some decorated.type ↔ ¬decorated.IsMistaken) ∧
    (¬decorated.IsMistaken → ∀ config : Config, definition.name = config.dispatchMethod →
      Config.names config.coreMatch config.coreFunctions definition = false →
      config.classify definition =
        if config.excludes decorated.type then (.helper, .dispatchExcluded)
        else (.dispatch decorated.type, .dispatchVariant)) := by
  have hbase : definition.baseType? = some decorated.type ↔ ¬decorated.IsMistaken := by
    rw [baseType?, head?_parameterTypes hproper hlist hrest htokens, Option.bind_some,
      ← hproper.base_eq_iff htokens]
    cases ParameterType.base (tight (withoutName (Text.collapseBlanks declared))) with
    | nil => simpa using hproper.type_ne_nil.symm
    | cons c others => exact Option.some_inj
  refine ⟨hbase, fun hmistaken config hmethod hcore => ?_⟩
  simp [Config.classify, hcore, hmethod, hbase.mpr hmistaken]

/-- Behind two words a type without a name is mistaken for one; a mark behind the type, or a name,
is enough to prevent this. -/
theorem baseType_eq_iff_of_tokens_struct :
    (ofParams "const struct Node").baseType? ≠ some "Node" ∧
      (ofParams "const struct ns::Node*const &  = {}, int x").baseType? = some "ns::Node" ∧
      Config.classify { dispatchMethod := "f" } (ofParams "enum Color color") =
        (.dispatch "Color", .dispatchVariant) := by
  have hmistaken : DecoratedType.IsProper ⟨["const", "struct"], "Node", [], none⟩ :=
    ⟨by decide, ⟨[], [], "Node", by simp, by simp, by decide, rfl⟩, by decide, by decide, by simp⟩
  have hmarked : DecoratedType.IsProper
      ⟨["const", "struct"], "ns::Node", ["*", "const", "&"], none⟩ :=
    ⟨by decide, ⟨[], ["ns"], "Node", by simp, by decide, by decide, rfl⟩, by decide, by decide,
      by simp⟩
  have hnamed : DecoratedType.IsProper ⟨["enum"], "Color", [], some "color"⟩ :=
    ⟨by decide, ⟨[], [], "Color", by simp, by simp, by decide, rfl⟩, by decide, by decide,
      by decide⟩
  have hlist : (ofParams "const struct Node").paramList =
      ("const struct Node".toList ++ [] : Text) := by decide
  have hlist' : (ofParams "const struct ns::Node*const &  = {}, int x").paramList =
      ("const struct ns::Node*const &  ".toList ++ "= {}, int x".toList : Text) := by decide
  have hlist'' : (ofParams "enum Color color").paramList =
      ("enum Color color".toList ++ [] : Text) := by decide
  refine ⟨fun hbase => ?_, ?_, ?_⟩
  · exact (baseType_eq_iff_of_tokens hmistaken hlist (by simp) (by decide)).1.mp hbase (by decide)
  · exact (baseType_eq_iff_of_tokens hmarked hlist' (by simp) (by decide)).1.mpr (by decide)
  · exact (baseType_eq_iff_of_tokens hnamed hlist'' (by simp) (by decide)).2 (by decide)
      { dispatchMethod := "f" } rfl (by decide)

end Definition

end MemberSplit
