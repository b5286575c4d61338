import MemberSplit.Proofs.Extraction.Invariant
import MemberSplit.Proofs.Header.Member
import MemberSplit.Proofs.Signature.Shape

/-!
# Names in a header and in a source

The name of a member function is read in two places: in front of the parameters of its definition,
and in front of the first parenthesis of its declaration. A definition is always read with the name
that it is written for. The two places agree on every name but that of the call operator, which a
declaration is never read with; so nothing is reported about a header and a source that hold the
same functions, unless one of the declarations is not read with its name.
-/

namespace MemberSplit

open Header (MemberName joinsName)
open Lexical (Token)

namespace Header.MemberName

variable {name name' : MemberName} {front front' gap gap' rest rest' : Text}

/-- Behind two colons, a name begins where another one begins that ends with it. -/
theorem text_eq_of_append_eq (h : name.isProper = true) (h' : name'.isProper = true)
    (hcall : name.isCall = false) (hcall' : name'.isCall = false)
    (heq : (front ++ "::".toList) ++ name.text = (front' ++ "::".toList) ++ name'.text) :
    name.text = name'.text := by
  have hjoins : ∀ {before front between : Text}, before ++ "::".toList = front ++ between →
      joinsName between = false := by
    intro before front between hsplit
    cases hlast : between.getLast? with
    | none => rw [joinsName, hlast, Option.any_none]
    | some c =>
        have hcolon := congrArg List.getLast? hsplit
        rw [List.getLast?_append, List.getLast?_append, hlast, Option.some_or] at hcolon
        obtain rfl : ':' = c := Option.some.inj hcolon
        rw [joinsName, hlast]
        decide
  rcases List.append_eq_append_iff.mp heq with ⟨between, hfront, hname⟩ | ⟨between, hfront, hname⟩
  · have hnil := eq_nil_of_text_eq h' h hcall' hcall (hjoins hfront) hname
    rw [hname, hnil, List.nil_append]
  · have hnil := eq_nil_of_text_eq h h' hcall hcall' (hjoins hfront) hname
    rw [hname, hnil, List.nil_append]

/-- The name in front of the first parenthesis of a text is told by the text, and so is what stands
behind that parenthesis. -/
theorem text_eq_of_first_paren (h : name.isProper = true) (h' : name'.isProper = true)
    (hcall : name.isCall = false) (hcall' : name'.isCall = false)
    (hgap : ∀ c ∈ gap, isBlank c = true) (hgap' : ∀ c ∈ gap', isBlank c = true)
    (hfront : '(' ∉ front) (hfront' : '(' ∉ front')
    (heq : front ++ ("::".toList ++ (name.text ++ (gap ++ '(' :: rest))) =
      front' ++ ("::".toList ++ (name'.text ++ (gap' ++ '(' :: rest')))) :
    name.text = name'.text ∧ rest = rest' := by
  have hblank : ∀ {part : Text}, (∀ c ∈ part, isBlank c = true) → '(' ∉ part := fun hpart hmem =>
    absurd (hpart _ hmem) (by decide)
  have hleft : '(' ∉ (front ++ "::".toList ++ name.text) ++ gap := by
    simp [hfront, not_mem_text h hcall, hblank hgap]
  have hright : '(' ∉ (front' ++ "::".toList ++ name'.text) ++ gap' := by
    simp [hfront', not_mem_text h' hcall', hblank hgap']
  obtain ⟨hnames, hrest⟩ := Text.eq_of_append_cons_eq hleft hright (by simpa using heq)
  have hdrop := congrArg (List.rdropWhile isBlank) hnames
  rw [Text.rdropWhile_run hgap (any_isBlank_getLast? h hcall _),
    Text.rdropWhile_run hgap' (any_isBlank_getLast? h' hcall' _)] at hdrop
  exact ⟨text_eq_of_append_eq h h' hcall hcall' hdrop, hrest⟩

/-- Without white space, only the name of the call operator holds parentheses. -/
theorem withoutBlanks_text_of_isCall (h : name.isProper = true) (hcall : name.isCall = true) :
    name.text.withoutBlanks = Name.operatorWord ++ "()".toList := by
  cases name with
  | plain | operator => cases hcall
  | call gap =>
      have hnone := Text.withoutBlanks_eq_nil (List.all_eq_true.mp h)
      rw [MemberName.text, Text.withoutBlanks_append, Text.withoutBlanks_append, hnone]
      decide

theorem not_mem_withoutBlanks_text (h : name.isProper = true) (hcall : name.isCall = false) :
    '(' ∉ name.text.withoutBlanks :=
  fun hmem => not_mem_text h hcall (List.mem_filter.mp hmem).1

end Header.MemberName

namespace Definition

/-- The definition is written for a function of this name: it begins with a return type without
parentheses, the owner and the name, and the parameters follow. -/
def IsWrittenFor (definition : Definition) (owner name : Text) : Prop :=
  ∃ (front : Text) (written : MemberName) (gap behind : Text), '(' ∉ front ∧
    written.isProper = true ∧ written.text.withoutBlanks = name ∧
    (∀ c ∈ gap, isBlank c = true) ∧
    definition.head =
      front ++ (owner ++ ("::".toList ++ (written.text ++ (gap ++ '(' :: behind))))

end Definition

namespace Signature.Pattern

variable {pattern : Pattern} {source name : Text} {signature : Signature}

/-- A signature is read with the name that it is written with. -/
theorem name_eq_of_head (hproper : pattern.IsProper)
    (hmem : signature ∈ pattern.signatures source) {front gap behind : Text} {written : MemberName}
    (hfront : '(' ∉ front) (hwritten : written.isProper = true)
    (hword : written.text.withoutBlanks ≠ Name.operatorWord)
    (hgap : ∀ c ∈ gap, isBlank c = true)
    (hhead : signature.head =
      front ++ (pattern.owner ++ ("::".toList ++ (written.text ++ (gap ++ '(' :: behind))))) :
    signature.name = written.text.withoutBlanks := by
  have hmade := isMadeOf_of_mem_signatures hmem
  have hread := areRead_of_mem_signaturesFrom hmem
  obtain ⟨kind, hkind, hname⟩ := hmade.isName
  have howner : '(' ∉ pattern.owner := fun hparen =>
    absurd (hproper.chars _ hparen) (by decide)
  have hresult : '(' ∉ signature.parts.result := hmade.not_mem_result '(' (by decide)
  -- Both readings are cut at the first parenthesis, which can be one of the call operator's.
  obtain ⟨gap₁, rest₁, hgap₁, htext₁, hrest₁⟩ := kind.exists_text_append hmade.isBlank_of_mem hkind
    (signature.parts.params ++
      ')' :: (qualifiersText signature.parts.qualifiers ++ signature.parts.closing))
  obtain ⟨gap₂, rest₂, hgap₂, htext₂, hrest₂⟩ := written.exists_text_append hgap hwritten behind
  have hsame := hmade.head.symm.trans hhead
  rw [← hname, htext₁, htext₂, ← List.append_assoc, ← List.append_assoc front] at hsame
  obtain ⟨hnames, hbehind⟩ := MemberName.text_eq_of_first_paren
    (MemberName.isProper_read hkind) (MemberName.isProper_read hwritten) kind.isCall_read
    written.isCall_read hgap₁ hgap₂ (by simp [hresult, howner]) (by simp [hfront, howner]) hsame
  rw [hmade.name, ← hname]
  by_cases hkindCall : kind.isCall = true
  · by_cases hwrittenCall : written.isCall = true
    · rw [MemberName.withoutBlanks_text_of_isCall hkind hkindCall,
        MemberName.withoutBlanks_text_of_isCall hwritten hwrittenCall]
    · -- The written name would be the bare word `operator`.
      rw [MemberName.read_eq_plain hkindCall,
        MemberName.read_eq_self (Bool.not_eq_true _ ▸ hwrittenCall)] at hnames
      exfalso
      apply hword
      rw [← hnames]
      decide
  · rw [MemberName.read_eq_self (Bool.not_eq_true _ ▸ hkindCall)] at hnames
    by_cases hwrittenCall : written.isCall = true
    · -- The parentheses of the call operator would be those of the parameters.
      rw [hrest₁, hrest₂, if_neg hkindCall, if_pos hwrittenCall] at hbehind
      exact absurd hbehind (hread.params_append_ne hgap)
    · rw [MemberName.read_eq_self (Bool.not_eq_true _ ▸ hwrittenCall)] at hnames
      rw [hnames]

end Signature.Pattern

namespace Extractor

variable {extractor : Extractor} {source name : Text} {definition : Definition}

/-- A definition is read with the name that it is written for. -/
theorem name_eq_of_isWrittenFor (hproper : extractor.pattern.IsProper)
    (hmem : definition ∈ (extractor.extract source).definitions)
    (hword : name ≠ Name.operatorWord)
    (h : definition.IsWrittenFor extractor.pattern.owner name) : definition.name = name := by
  obtain ⟨signature, hsignature, hread⟩ := exists_isReadFrom hmem
  obtain ⟨front, written, gap, behind, hfront, hwritten, rfl, hgap, hhead⟩ := h
  rw [hread.head] at hhead
  rw [hread.name]
  exact Signature.Pattern.name_eq_of_head hproper hsignature hfront hwritten hword hgap hhead

end Extractor

namespace Header

/-- The name of the call operator, without white space. -/
def callName : Text :=
  Name.operatorWord ++ "()".toList

namespace Member

variable {member : Member} {name : Text}

/-- A name is read from the member that declares it, or it is the word that stands for the call
operator. -/
theorem cases_of_readAs (hproper : member.IsProper) (h : member.readAs = some name) :
    (member.isClear = true ∧ member.declares = some name) ∨
      (name = Name.operatorWord ∧ member.declares = some callName) := by
  cases member with
  | function declarator =>
      obtain ⟨hcut, hsome⟩ := Option.ite_none_left_eq_some.mp h
      obtain rfl := Option.some.inj hsome
      by_cases hcall : declarator.name.isCall = true
      · right
        refine ⟨?_, congrArg some ?_⟩
        · rw [MemberName.read_eq_plain hcall]
          decide
        · exact MemberName.withoutBlanks_text_of_isCall hproper.name hcall
      · left
        have hplain : declarator.name.isCall = false := Bool.not_eq_true _ ▸ hcall
        rw [MemberName.read_eq_self hplain]
        exact ⟨by simpa [isClear, hplain] using hcut, rfl⟩
  | bodiless | apart | other | definition => cases h

/-- The name of the call operator is not declared clearly. -/
theorem declares_ne_of_isClear (hproper : member.IsProper) (hclear : member.isClear = true) :
    member.declares ≠ some callName := by
  cases member with
  | function declarator =>
      intro hname
      have hplain : declarator.name.isCall = false := by
        simp only [isClear, Bool.and_eq_true, Bool.not_eq_true'] at hclear
        exact hclear.2
      have hparen := MemberName.not_mem_withoutBlanks_text hproper.name hplain
      rw [Option.some.inj hname] at hparen
      exact hparen (by decide)
  | bodiless | apart | other | definition => exact nofun

end Member

/-- Nothing is reported if the definitions have just the names of the set. -/
theorem mismatches_eq_nil_iff {definitions : List Definition} {names : NameSet} :
    mismatches definitions names = [] ↔
      ∀ name, (∃ definition ∈ definitions, definition.name = name) ↔ name ∈ names := by
  have hmissing : mismatches definitions names = [] ↔
      (∀ definition ∈ definitions, definition.name ∈ names) ∧
        ∀ name ∈ names, ∃ definition ∈ definitions, definition.name = name := by
    rw [mismatches, List.append_eq_nil_iff, List.filterMap_eq_nil_iff, List.filterMap_eq_nil_iff]
    apply and_congr
    · simp [NameSet.contains_iff_mem]
    · apply forall₂_congr
      intro name _
      simp
  rw [hmissing]
  constructor
  · rintro ⟨hdeclared, hdefined⟩ name
    refine ⟨?_, hdefined name⟩
    rintro ⟨definition, hmem, rfl⟩
    exact hdeclared definition hmem
  · intro hiff
    exact ⟨fun definition hmem => (hiff _).mp ⟨definition, hmem, rfl⟩, fun name => (hiff name).mpr⟩

/-- The definitions are written for the member functions that some members declare. -/
structure AreDefinitionsOf (definitions : List Definition) (owner : Text) (members : List Member) :
    Prop where
  defined : ∀ member ∈ members, ∀ name, member.declares = some name →
    ∃ definition ∈ definitions, definition.IsWrittenFor owner name
  declared : ∀ definition ∈ definitions, ∃ member ∈ members, ∃ name,
    member.declares = some name ∧ definition.IsWrittenFor owner name

section Names

variable {extractor : Extractor} {source : Text} {members : List Member}

/-- The names of the definitions are the declared ones. -/
theorem AreDefinitionsOf.exists_name_iff (hproper : extractor.pattern.IsProper)
    (h : AreDefinitionsOf (extractor.extract source).definitions extractor.pattern.owner members)
    (hword : ∀ member ∈ members, member.declares ≠ some Name.operatorWord) (name : Text) :
    (∃ definition ∈ (extractor.extract source).definitions, definition.name = name) ↔
      ∃ member ∈ members, member.declares = some name := by
  have hread : ∀ member ∈ members, ∀ name, member.declares = some name →
      ∀ definition ∈ (extractor.extract source).definitions,
        definition.IsWrittenFor extractor.pattern.owner name → definition.name = name := by
    intro member hmember name hname definition hmem hwritten
    apply Extractor.name_eq_of_isWrittenFor hproper hmem _ hwritten
    rintro rfl
    exact hword member hmember hname
  constructor
  · rintro ⟨definition, hmem, rfl⟩
    obtain ⟨member, hmember, name, hname, hwritten⟩ := h.declared definition hmem
    refine ⟨member, hmember, ?_⟩
    rw [hread member hmember name hname definition hmem hwritten, hname]
  · rintro ⟨member, hmember, hname⟩
    obtain ⟨definition, hmem, hwritten⟩ := h.defined member hmember name hname
    exact ⟨definition, hmem, hread member hmember name hname definition hmem hwritten⟩

/-- The names that are read are the declared ones just if each of these is declared clearly. -/
theorem forall_declares_iff_readAs (hproper : ∀ member ∈ members, member.IsProper)
    (hword : ∀ member ∈ members, member.declares ≠ some Name.operatorWord) :
    (∀ name, (∃ member ∈ members, member.declares = some name) ↔
        ∃ member ∈ members, member.readAs = some name) ↔
      ∀ member ∈ members, ∀ name, member.declares = some name →
        ∃ other ∈ members, other.isClear = true ∧ other.declares = some name := by
  constructor
  · intro hiff member hmember name hname
    obtain ⟨other, hother, hread⟩ := (hiff name).mp ⟨member, hmember, hname⟩
    rcases Member.cases_of_readAs (hproper other hother) hread with hclear | ⟨rfl, -⟩
    · exact ⟨other, hother, hclear⟩
    · exact absurd hname (hword member hmember)
  · intro hclear name
    constructor
    · rintro ⟨member, hmember, hname⟩
      obtain ⟨other, hother, hother', hdeclares⟩ := hclear member hmember name hname
      exact ⟨other, hother, (Member.readAs_eq_declares hother').trans hdeclares⟩
    · rintro ⟨member, hmember, hread⟩
      rcases Member.cases_of_readAs (hproper member hmember) hread with ⟨-, hname⟩ | ⟨-, hcall⟩
      · exact ⟨member, hmember, hname⟩
      · -- A declaration of the call operator is never clear.
        obtain ⟨other, hother, hother', hdeclares⟩ := hclear member hmember callName hcall
        exact absurd hdeclares (Member.declares_ne_of_isClear (hproper other hother) hother')

/-- If a header and a source hold the same member functions, then nothing is reported about them
just if each name is declared clearly. What is reported otherwise comes from a declaration that is
not read with its name: one with braces, one that looks like a friend, or the call operator's. -/
theorem exists_mismatches_iff (howner : Config.isQualifiedName extractor.pattern.owner = true)
    (type : TypeText extractor.pattern.owner.lastComponent)
    (hentries : type.entries = members.map Member.entry)
    (hproper : ∀ member ∈ members, member.IsProper)
    (hword : ∀ member ∈ members, member.declares ≠ some Name.operatorWord)
    (hsame : AreDefinitionsOf (extractor.extract source).definitions extractor.pattern.owner
      members) :
    ∃ names, members? type.text extractor.pattern.owner = some names ∧
      (mismatches (extractor.extract source).definitions names = [] ↔
        ∀ member ∈ members, ∀ name, member.declares = some name →
          ∃ other ∈ members, other.isClear = true ∧ other.declares = some name) ∧
      ((∀ member ∈ members, member.isClear = true) →
        mismatches (extractor.extract source).definitions names = []) := by
  have howner' := Signature.Pattern.isProper_of_isQualifiedName howner
  have hiff : mismatches (extractor.extract source).definitions
      (NameSet.ofList (members.filterMap Member.readAs)) = [] ↔
        ∀ member ∈ members, ∀ name, member.declares = some name →
          ∃ other ∈ members, other.isClear = true ∧ other.declares = some name := by
    rw [mismatches_eq_nil_iff, ← forall_declares_iff_readAs hproper hword]
    apply forall_congr'
    intro name
    rw [hsame.exists_name_iff howner' hword, NameSet.mem_ofList, List.mem_filterMap]
  refine ⟨_, members?_of_members type hentries hproper, hiff, fun hclear => ?_⟩
  apply hiff.mpr
  intro member hmember name hname
  exact ⟨member, hmember, hclear member hmember, hname⟩

end Names

/-- A function that takes a function, an operator that is written with and without a space, and a
destructor agree. -/
theorem exists_mismatches_iff_operator :
    let extractor : Extractor := ⟨⟨"Foo", .wrapped⟩, .lexical⟩
    let header : Text := "class Foo \x7b\n  void f(int (*g)(int));\n" ++
      "  bool operator ==(Foo o) const;\n  ~Foo();\n\x7d;\n"
    let source : Text := "void Foo::f(int (*g)(int)) \x7b\x7d\n" ++
      "bool Foo::operator==(Foo o) const \x7b\x7d\nFoo::~Foo() \x7b\x7d\n"
    ∃ names, members? header "Foo" = some names ∧
      mismatches (extractor.extract source).definitions names = [] := by
  intro extractor header source
  let takes : Declarator :=
    { front := Token.ofText "\n  void ", name := .plain "f", gap := [],
      params := (Token.ofText "int (*g)(int)").map .plain, suffix := [] }
  let compare : Declarator :=
    { front := Token.ofText "\n  bool ", name := .operator " " "==", gap := [],
      params := (Token.ofText "Foo o").map .plain, suffix := (Token.ofText " const").map .plain }
  let destroy : Declarator :=
    { front := Token.ofText "\n  ", name := .plain "~Foo", gap := [], params := [], suffix := [] }
  let members : List Member := [.function takes, .function compare, .function destroy]
  let head : TypeHead (Text.lastComponent "Foo") :=
    { keyword := "class", blanks := " ", bases := " ", isKeyword := by decide,
      blanks_ne_nil := by decide, isBlank_of_mem := List.all_eq_true.mp rfl,
      name_ne_nil := by decide, isWordChar_of_mem := List.all_eq_true.mp (by decide),
      isHeadChar_of_mem := List.all_eq_true.mp rfl, endsName := by decide }
  let type : TypeText (Text.lastComponent "Foo") :=
    { before := [], head := head, entries := members.map Member.entry, tail := Token.ofText "\n",
      after := ";\n", isFirst := rfl, beginsWord := rfl, areProper := by decide +kernel,
      isTailProper := by decide +kernel, areApart := by decide +kernel }
  have htakes : takes.IsProper := by constructor <;> decide +kernel
  have hcompare : compare.IsProper := by constructor <;> decide +kernel
  have hdestroy : destroy.IsProper := by constructor <;> decide +kernel
  have hproper : ∀ member ∈ members, member.IsProper := by
    simp only [members, List.forall_mem_cons]
    exact ⟨htakes, hcompare, hdestroy, by simp⟩
  have hheads : (extractor.extract source).definitions.map Definition.head =
      ["void Foo::f(int (*g)(int)) ", "bool Foo::operator==(Foo o) const ", "Foo::~Foo() "] := by
    decide +kernel
  obtain ⟨first, others, hlist, hfirst, hothers⟩ := List.map_eq_cons_iff.mp hheads
  obtain ⟨second, later, rfl, hsecond, hlater⟩ := List.map_eq_cons_iff.mp hothers
  obtain ⟨third, last, rfl, hthird, hlast⟩ := List.map_eq_cons_iff.mp hlater
  obtain rfl := List.map_eq_nil_iff.mp hlast
  have hfirst' : first.IsWrittenFor "Foo" "f" :=
    ⟨"void ", .plain "f", [], "int (*g)(int)) ", by decide, by decide, by decide, by simp, hfirst⟩
  have hsecond' : second.IsWrittenFor "Foo" "operator==" :=
    ⟨"bool ", .operator [] "==", [], "Foo o) const ", by decide, by decide, by decide, by simp,
      hsecond⟩
  have hthird' : third.IsWrittenFor "Foo" "~Foo" :=
    ⟨[], .plain "~Foo", [], ") ", by decide, by decide, by decide, by simp, hthird⟩
  have htakes' : (Member.function takes).declares = some "f".toList := by decide +kernel
  have hcompare' : (Member.function compare).declares = some "operator==".toList := by
    decide +kernel
  have hdestroy' : (Member.function destroy).declares = some "~Foo".toList := by decide +kernel
  have hsame : AreDefinitionsOf (extractor.extract source).definitions "Foo" members := by
    constructor
    · simp only [members, List.forall_mem_cons, htakes', hcompare', hdestroy', Option.some.injEq,
        forall_eq', hlist]
      exact ⟨⟨first, by simp, hfirst'⟩, ⟨second, by simp, hsecond'⟩, ⟨third, by simp, hthird'⟩,
        by simp⟩
    · simp only [hlist, List.forall_mem_cons]
      exact ⟨⟨.function takes, by simp [members], _, htakes', hfirst'⟩,
        ⟨.function compare, by simp [members], _, hcompare', hsecond'⟩,
        ⟨.function destroy, by simp [members], _, hdestroy', hthird'⟩, by simp⟩
  obtain ⟨names, hnames, -, hclear⟩ := exists_mismatches_iff (by decide) type rfl hproper
    (by decide +kernel) hsame
  have htext : type.text = header := by decide +kernel
  exact ⟨names, htext ▸ hnames, hclear (by decide +kernel)⟩

/-- The call operator is declared under one name and defined under another. -/
example :
    let extractor : Extractor := ⟨⟨"Foo", .wrapped⟩, .lexical⟩
    (members? "class Foo \x7b int operator()(int x); \x7d;" "Foo").map (mismatches
      (extractor.extract "int Foo::operator()(int x) \x7b return x; \x7d").definitions) =
        some [.undeclared "Foo::operator()" 1, .missingDefinition "operator"] := by
  decide +kernel

end Header

end MemberSplit
