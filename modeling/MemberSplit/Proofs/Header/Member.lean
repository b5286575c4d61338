import MemberSplit.Proofs.Header.Statement

/-!
# Members that a header declares

The body of a type holds declarations of member functions, functions without a body elsewhere,
definitions, data and declarations of another kind. The names that are read are those of the member
functions, in any order of the members, as long as no declaration holds a brace: the text of a
declaration begins behind its last brace, so that a function with a default argument `= {}` is lost.
-/

namespace MemberSplit

namespace Lexical.Token

/-- The tokens of a text that holds neither comments nor literals. -/
def ofText (text : Text) : List Token :=
  text.map fun c => if c = '/' then slash else code c

theorem visible_ofText (text : Text) : visible (ofText text) = text := by
  induction text with
  | nil => rfl
  | cons c rest ih =>
      rw [ofText, List.map_cons, visible_cons]
      split
      next hc => rw [hc, ← ofText, ih]; rfl
      next => rw [← ofText, ih]; rfl

end Lexical.Token

namespace Header

open Lexical (Token)
open Lexical.Token (visible)

/-- A member function as it is declared, up to the semicolon. -/
structure Declarator where
  /-- What stands in front of the name, access specifiers and the return type among it. -/
  front : List Token
  name : MemberName
  gap : List Token
  params : List Piece
  /-- What stands behind the parameters. -/
  suffix : List Piece
  deriving DecidableEq, Repr

namespace Declarator

variable (declarator : Declarator)

/-- The pieces from the parameters on. -/
def behind : List Piece :=
  declarator.params ++ .plain (.code ')') :: declarator.suffix

/-- The declarator as it is written. -/
def pieces : List Piece :=
  (declarator.front ++ (Token.ofText declarator.name.text ++
    (declarator.gap ++ [Token.code '(']))).map .plain ++ declarator.behind

/-- Whether braces stand in the parameters or behind them. -/
def isCut : Bool :=
  declarator.behind.any Piece.isBlock

/-- Whether the declaration begins like one that declares no member function. -/
def looksApart : Bool :=
  beginsApart (visible declarator.front ++ declarator.name.text)

/-- The text from the name on. -/
def text : Text :=
  declarator.name.text ++
    (visible declarator.gap ++ '(' :: visible (Piece.spellOut declarator.behind))

/-- The pieces are what their names say, and nothing looks like an access specifier, like the end
of a function without a body or like a word that is no name where it is none. -/
structure IsProper (declarator : Declarator) : Prop where
  front : '(' ∉ visible declarator.front
  beginsName : joinsName (visible declarator.front) = false
  name : declarator.name.isProper = true
  noColon : ':' ∉ declarator.name.text
  isMember : declarator.name.read.text.withoutBlanks ∉ nonMembers
  gap : (visible declarator.gap).all isBlank = true
  noAccess : ∀ access ∈ accessWords, ¬access <:+: declarator.text
  needsBody : endsBodiless (visible (Piece.spellOut declarator.suffix)) = false
  /-- Behind the last brace, if there is one, no other function is called. -/
  quiet : declarator.isCut = true → '(' ∉ Piece.runBehind [] declarator.pieces

variable {declarator}

theorem runBehind_pieces (h : declarator.isCut = false) :
    Piece.runBehind [] declarator.pieces = visible declarator.front ++ declarator.text := by
  rw [pieces, Piece.runBehind_append, Piece.runBehind_map_plain, Piece.runBehind_of_plain h, text]
  simp only [Token.visible_append, Token.visible_ofText, List.nil_append, List.append_assoc]
  rfl

theorem isSpecial_text (h : declarator.IsProper) :
    isSpecial (visible declarator.front ++ declarator.text) = declarator.looksApart := by
  have hsuffix : visible declarator.front ++ declarator.text =
      (visible declarator.front ++ declarator.name.text ++ visible declarator.gap ++
        '(' :: visible (Piece.spellOut declarator.params)) ++
          ')' :: visible (Piece.spellOut declarator.suffix) := by
    simp [text, behind, Piece.tokens, Token.withoutComment, Token.text]
  have hfront : visible declarator.front ++ declarator.text =
      (visible declarator.front ++ declarator.name.text ++ visible declarator.gap) ++
        '(' :: visible (Piece.spellOut declarator.behind) := by
    simp [text]
  have hgap : beginsApart (visible declarator.front ++ declarator.name.text ++
      visible declarator.gap) = declarator.looksApart := by
    have hblank := Text.withoutBlanks_eq_nil (List.all_eq_true.mp h.gap)
    rw [looksApart, beginsApart, Text.withoutBlanks_append, hblank, List.append_nil]
    rfl
  have hends : endsBodiless (visible declarator.front ++ declarator.text) = false := by
    rw [hsuffix, endsBodiless_append, h.needsBody]
  have hbegins : beginsApart (visible declarator.front ++ declarator.text) =
      declarator.looksApart := by
    rw [hfront, beginsApart_append, hgap]
  rw [isSpecial_eq, hends, hbegins, Bool.false_or]

/-- The name is read, unless braces cut the declaration or it begins like one of another kind. -/
theorem readName?_pieces (h : declarator.IsProper) :
    readName? (Piece.runBehind [] declarator.pieces) =
      if declarator.isCut || declarator.looksApart then none
      else some declarator.name.read.text.withoutBlanks := by
  cases hcut : declarator.isCut with
  | true => exact readName?_eq_none (h.quiet hcut)
  | false =>
      obtain ⟨gap, rest, hgap, htext, -⟩ := declarator.name.exists_text_append
        (List.all_eq_true.mp h.gap) h.name (visible (Piece.spellOut declarator.behind))
      have hrest : ∀ access ∈ accessWords, ¬access <:+: rest := fun access hmem hinside =>
        h.noAccess access hmem (hinside.trans
          ⟨declarator.name.read.text ++ (gap ++ ['(']), [], by rw [text, htext]; simp⟩)
      have hcolon : ':' ∉ declarator.name.read.text := by
        have hname := h.noColon
        cases hkind : declarator.name with
        | plain | operator => rwa [hkind] at hname
        | call => exact of_decide_eq_true rfl
      have hname := declaredName?_append (MemberName.isProper_read h.name)
        declarator.name.isCall_read hgap hcolon h.front h.beginsName h.isMember hrest
      rw [← htext] at hname
      rw [runBehind_pieces hcut, readName?, isSpecial_text h, text, hname, Bool.false_or]

end Declarator

/-- A member of a type. -/
inductive Member where
  /-- The declaration of a member function. -/
  | function (declarator : Declarator)
  /-- A function that is pure, defaulted or deleted. -/
  | bodiless (pieces : List Piece) (ending : List Token)
  /-- A friend, an alias or another declaration that begins like one. -/
  | apart (blanks : List Token) (beginning : Text) (rest : List Token)
  /-- Data, nested types and all else without a parenthesis behind its last brace. -/
  | other (pieces : List Piece)
  /-- A function with its body. -/
  | definition (pieces : List Piece) (body : List Token)
  deriving DecidableEq, Repr

namespace Member

/-- The member as a part of the body. -/
def entry : Member → Entry
  | function declarator => .statement declarator.pieces
  | bodiless pieces ending => .statement (pieces ++ ending.map .plain)
  | apart blanks beginning rest =>
    .statement ((blanks ++ (Token.ofText beginning ++ rest)).map .plain)
  | other pieces => .statement pieces
  | definition pieces body => .definition pieces body

/-- Whether the member is written as its kind asks for. -/
def IsProper : Member → Prop
  | function declarator => declarator.IsProper
  | bodiless _ ending => (visible ending).withoutBlanks ∈ endings
  | apart blanks beginning _ => (visible blanks).all isBlank = true ∧ beginning ∈ beginnings
  | other pieces => '(' ∉ Piece.runBehind [] pieces
  | definition _ _ => True

/-- The name of the member function that the member declares and that needs a definition. -/
def declares : Member → Option Text
  | function declarator => some declarator.name.text.withoutBlanks
  | _ => none

/-- The name that is read from the member. -/
def readAs : Member → Option Text
  | function declarator =>
    if declarator.isCut || declarator.looksApart then none
    else some declarator.name.read.text.withoutBlanks
  | _ => none

/-- Whether the name that the member declares is the one that is read: no brace cuts the
declaration, it begins like no declaration of another kind, and the name is not that of the call
operator. -/
def isClear : Member → Bool
  | function declarator =>
    !declarator.isCut && !declarator.looksApart && !declarator.name.isCall
  | _ => true

variable {member : Member}

theorem readAs_eq_declares (h : member.isClear = true) : member.readAs = member.declares := by
  cases member with
  | function declarator =>
      obtain ⟨hapart, hcall⟩ := Bool.and_eq_true_iff.mp h
      have hnone : (declarator.isCut || declarator.looksApart) = false := by
        rw [Bool.or_eq_false_iff]
        simpa using hapart
      have hread : declarator.name.read = declarator.name := by
        cases hname : declarator.name with
        | plain | operator => rfl
        | call gap => simp [hname, MemberName.isCall] at hcall
      rw [readAs, hnone, hread, declares]
      rfl
  | bodiless | apart | other | definition => rfl

/-- What is read from a member is told by its kind. -/
theorem bind_declaration? (h : member.IsProper) :
    member.entry.declaration?.bind readName? = member.readAs := by
  cases member with
  | function declarator => exact declarator.readName?_pieces h
  | bodiless pieces ending =>
      rw [entry, Entry.declaration?, Option.bind_some, Piece.runBehind_append,
        Piece.runBehind_map_plain]
      exact readName?_of_ending h _
  | apart blanks beginning rest =>
      obtain ⟨hblanks, hbeginning⟩ := h
      rw [entry, Entry.declaration?, Option.bind_some, Piece.runBehind_map_plain, List.nil_append,
        Token.visible_append, Token.visible_append, Token.visible_ofText]
      exact readName?_of_beginning (List.all_eq_true.mp hblanks) hbeginning _
  | other pieces => exact readName?_eq_none h
  | definition pieces body => rfl

end Member

theorem members?_of_members {owner : Text} (type : TypeText owner.lastComponent)
    {members : List Member} (hentries : type.entries = members.map Member.entry)
    (hproper : ∀ member ∈ members, member.IsProper) :
    members? type.text owner = some (NameSet.ofList (members.filterMap Member.readAs)) := by
  have hread : type.entries.filterMap (fun entry => entry.declaration?.bind readName?) =
      members.filterMap Member.readAs := by
    rw [hentries, List.filterMap_map]
    exact List.filterMap_congr fun member hmem => Member.bind_declaration? (hproper member hmem)
  rw [members?_text, hread]

/-- The names that are read from a header are those that its members are read as, whatever their
order. They are the names of the member functions that the header declares if each of these is
clear; one that holds a brace, as in a default argument `= {}`, is not read. -/
theorem exists_members?_iff {owner : Text} (type : TypeText owner.lastComponent)
    {members : List Member} (hentries : type.entries = members.map Member.entry)
    (hproper : ∀ member ∈ members, member.IsProper) :
    ∃ names, members? type.text owner = some names ∧
      (∀ name, name ∈ names ↔ ∃ member ∈ members, member.readAs = some name) ∧
      ((∀ member ∈ members, member.isClear = true) →
        ∀ name, name ∈ names ↔ ∃ member ∈ members, member.declares = some name) := by
  have hnames : ∀ name, name ∈ NameSet.ofList (members.filterMap Member.readAs) ↔
      ∃ member ∈ members, member.readAs = some name := fun name => by
    rw [NameSet.mem_ofList, List.mem_filterMap]
  refine ⟨NameSet.ofList (members.filterMap Member.readAs), ?_, hnames, fun hclear name => ?_⟩
  · exact members?_of_members type hentries hproper
  · rw [hnames]
    exact exists_congr fun member => and_congr_right fun hmem => by
      rw [Member.readAs_eq_declares (hclear member hmem)]

/-- A constructor and a member function are read from among members of all kinds, and a function
with an argument in braces is not. -/
theorem exists_members?_iff_braces :
    let header : Text := "class Foo : Bar \x7b\npublic:\n  Foo(char c = '(');\n" ++
      "  int n() \x7b return n_; \x7d\n  virtual void r() = 0; // pure(\n  friend X;\n" ++
      "  void f(Opts o = \x7b\x7d);\n  int n_;\n  bool operator==(Foo) const;\n\x7d;\n"
    ∃ names, members? header "Foo" = some names ∧ "Foo".toList ∈ names ∧
      "operator==".toList ∈ names ∧ "f".toList ∉ names := by
  intro header
  let construct : Declarator :=
    { front := Token.ofText "\npublic:\n  ", name := .plain "Foo", gap := [],
      params := (Token.ofText "char c = " ++ [Token.literal '\'' [.plain '(']]).map .plain,
      suffix := [] }
  let braced : Declarator :=
    { front := Token.ofText "\n  void ", name := .plain "f", gap := [],
      params := (Token.ofText "Opts o = ").map .plain ++ [.block []], suffix := [] }
  let compare : Declarator :=
    { front := Token.ofText "\n  bool ", name := .operator [] "==", gap := [],
      params := (Token.ofText "Foo").map .plain, suffix := (Token.ofText " const").map .plain }
  let members : List Member :=
    [.function construct,
      .definition ((Token.ofText "\n  int n() ").map .plain) (Token.ofText " return n_; "),
      .bodiless ((Token.ofText "\n  virtual void r() ").map .plain) (Token.ofText "= 0"),
      .apart (Token.ofText " " ++ [Token.lineComment " pure("] ++ Token.ofText "\n  ") "friend"
        (Token.ofText " X"),
      .function braced, .other ((Token.ofText "\n  int n_").map .plain), .function compare]
  let head : TypeHead (Text.lastComponent "Foo") :=
    { keyword := "class", blanks := " ", bases := " : Bar ", isKeyword := by decide,
      blanks_ne_nil := by decide, isBlank_of_mem := List.all_eq_true.mp rfl,
      name_ne_nil := by decide, isWordChar_of_mem := List.all_eq_true.mp (by decide),
      isHeadChar_of_mem := List.all_eq_true.mp rfl, endsName := by decide }
  let type : TypeText (Text.lastComponent "Foo") :=
    { before := [], head := head, entries := members.map Member.entry, tail := Token.ofText "\n",
      after := ";\n", isFirst := rfl, beginsWord := rfl, areProper := by decide +kernel,
      isTailProper := by decide +kernel, areApart := by decide +kernel }
  have hconstruct : construct.IsProper := by constructor <;> decide +kernel
  have hbraced : braced.IsProper := by constructor <;> decide +kernel
  have hcompare : compare.IsProper := by constructor <;> decide +kernel
  have hending : (visible (Token.ofText "= 0")).withoutBlanks ∈ endings := by decide +kernel
  have hdata : '(' ∉ Piece.runBehind [] ((Token.ofText "\n  int n_").map .plain) := by
    decide +kernel
  have hproper : ∀ member ∈ members, member.IsProper := by
    simp only [members, List.forall_mem_cons]
    exact ⟨hconstruct, trivial, hending, ⟨rfl, by decide⟩, hbraced, hdata, hcompare, by simp⟩
  obtain ⟨names, hnames, hread, -⟩ := exists_members?_iff type rfl hproper
  have htext : type.text = header := by decide +kernel
  have hlost : ¬∃ member ∈ members, member.readAs = some "f".toList := by decide +kernel
  exact ⟨names, htext ▸ hnames, (hread _).mpr (by decide +kernel),
    (hread _).mpr (by decide +kernel), fun hmem => hlost ((hread _).mp hmem)⟩

end Header

end MemberSplit
