import MemberSplit.Proofs.Header.Declaration
import MemberSplit.Proofs.Header.TypeBody
import MemberSplit.Proofs.Lexical.Nesting
import MemberSplit.Proofs.Lexical.Uncomment

/-!
# Statements of a type body

A type body is a row of entries, each of which a semicolon or the end of a block ends. The text of a
statement goes back to the last brace outside inner braces, so a block inside an entry cuts it: only
what stands behind its last block is read as a declaration.
-/

namespace MemberSplit.Header

open Lexical (Token)
open Lexical.Token (areNested brace? depthThrough? visible withoutComment)

variable {run : Text} {depth depth' : Nat}

theorem statementsFrom_append_of_open (hrun : ∀ c ∈ run, c ≠ '{' ∧ c ≠ '}') (depth : Nat)
    (current rest : Text) :
    statementsFrom (depth + 1) current (run ++ rest) = statementsFrom (depth + 1) current rest := by
  induction run with
  | nil => rfl
  | cons c others ih =>
      obtain ⟨⟨hopen, hclose⟩, hothers⟩ := List.forall_mem_cons.mp hrun
      rw [List.cons_append, statementsFrom, if_neg hopen, if_neg hclose,
        if_neg (Nat.succ_ne_zero depth), ih hothers]

/-- Whether the character is part of the statement that it stands in. -/
def isStatementChar (c : Char) : Bool :=
  c != '{' && c != '}' && c != ';'

theorem statementsFrom_append (hrun : ∀ c ∈ run, isStatementChar c = true) (current rest : Text) :
    statementsFrom 0 current (run ++ rest) = statementsFrom 0 (run.reverse ++ current) rest := by
  induction run generalizing current with
  | nil => rfl
  | cons c others ih =>
      obtain ⟨hc, hothers⟩ := List.forall_mem_cons.mp hrun
      obtain ⟨⟨hopen, hclose⟩, hend⟩ : (c ≠ '{' ∧ c ≠ '}') ∧ c ≠ ';' := by
        simpa [isStatementChar] using hc
      rw [List.cons_append, statementsFrom, if_neg hopen, if_neg hclose, if_pos rfl, if_neg hend,
        ih hothers, List.reverse_cons, List.append_assoc, List.singleton_append]

/-- A tame token that is no brace holds none. -/
theorem ne_brace_of_mem_withoutComment {token : Token} (htame : token.isTame = true)
    (hnone : token.brace? = none) : ∀ c ∈ token.withoutComment, c ≠ '{' ∧ c ≠ '}' := by
  cases token with
  | code c =>
      refine List.forall_mem_singleton.mpr ⟨?_, ?_⟩
      · rintro rfl
        cases hnone
      · rintro rfl
        cases hnone
  | slash | lineComment inner | blockComment inner => simp [withoutComment, Token.text]
  | literal mark inner =>
      intro c hmem
      have hbraces := List.all_eq_true.mp (Bool.and_eq_true_iff.mp htame).1 c hmem
      simpa using hbraces

/-- Inside a block nothing is read, and inner blocks open and close as their braces say. -/
theorem statementsFrom_nested {tokens : List Token} (htame : tokens.all Token.isTame = true)
    (h : depthThrough? depth tokens = some depth') (current rest : Text) :
    statementsFrom (depth + 1) current (visible tokens ++ rest) =
      statementsFrom (depth' + 1) current rest := by
  induction tokens generalizing depth with
  | nil =>
      obtain rfl : depth = depth' := Option.some.inj h
      rfl
  | cons token others ih =>
      obtain ⟨between, hhere, hothers⟩ := Token.depthThrough?_cons_eq_some h
      obtain ⟨htoken, htame'⟩ := Bool.and_eq_true_iff.mp htame
      rw [Token.visible_cons, List.append_assoc, ← ih htame' hothers]
      cases hbrace : token.brace? with
      | none =>
          obtain rfl : depth = between := by simpa [hbrace, Brace.depthAfter?] using hhere
          exact statementsFrom_append_of_open
            (ne_brace_of_mem_withoutComment htoken hbrace) depth current _
      | some brace =>
          cases brace with
          | opening =>
              obtain rfl := Token.eq_of_brace?_opening hbrace
              obtain rfl : depth + 1 = between := by simpa [hbrace, Brace.depthAfter?] using hhere
              rfl
          | closing =>
              obtain rfl := Token.eq_of_brace?_closing hbrace
              cases depth with
              | zero => cases hhere
              | succ depth =>
                  obtain rfl : depth = between := by
                    simpa [hbrace, Brace.depthAfter?] using hhere
                  rfl

/-- A piece of a member of a type. -/
inductive Piece where
  /-- A token outside inner braces. -/
  | plain (token : Token)
  /-- What stands between an inner brace and its partner. -/
  | block (inner : List Token)
  deriving DecidableEq, Repr

namespace Piece

/-- The piece as it is written. -/
def tokens : Piece → List Token
  | plain token => [token]
  | block inner => .code '{' :: (inner ++ [.code '}'])

/-- Whether the piece ends no statement and holds no brace without its partner, also for a reader
that does not know literals. -/
def isProper : Piece → Bool
  | plain token => token.isTame && token.withoutComment.all isStatementChar
  | block inner => inner.all Token.isTame && areNested inner

/-- The tokens of some pieces. -/
def spellOut (pieces : List Piece) : List Token :=
  pieces.flatMap tokens

/-- The text of a statement behind some pieces, if it is `run` in front of them. -/
def runBehind (run : Text) : List Piece → Text
  | [] => run
  | plain token :: rest => runBehind (run ++ token.withoutComment) rest
  | block _ :: rest => runBehind [] rest

@[simp] theorem spellOut_cons (piece : Piece) (rest : List Piece) :
    spellOut (piece :: rest) = piece.tokens ++ spellOut rest := rfl

@[simp] theorem spellOut_append (front rest : List Piece) :
    spellOut (front ++ rest) = spellOut front ++ spellOut rest :=
  List.flatMap_append

/-- Some pieces give statements with a body, and leave the text behind the last block. -/
theorem statementsFrom_spellOut {pieces : List Piece} (h : pieces.all isProper = true)
    (run : Text) : ∃ bodies : List Statement, (∀ statement ∈ bodies, statement.hasBody = true) ∧
      ∀ rest, statementsFrom 0 run.reverse (visible (spellOut pieces) ++ rest) =
        bodies ++ statementsFrom 0 (runBehind run pieces).reverse rest := by
  induction pieces generalizing run with
  | nil => exact ⟨[], by simp, fun _ => rfl⟩
  | cons piece others ih =>
      obtain ⟨hpiece, hothers⟩ := Bool.and_eq_true_iff.mp h
      cases piece with
      | plain token =>
          obtain ⟨bodies, hbodies, hrest⟩ := ih hothers (run ++ token.withoutComment)
          refine ⟨bodies, hbodies, fun rest => ?_⟩
          have hchars := List.all_eq_true.mp (Bool.and_eq_true_iff.mp hpiece).2
          have hhere := statementsFrom_append hchars run.reverse
            (visible (spellOut others) ++ rest)
          rw [← List.reverse_append, hrest] at hhere
          rw [runBehind, ← hhere]
          simp [tokens]
      | block inner =>
          obtain ⟨htame, hnested⟩ := Bool.and_eq_true_iff.mp hpiece
          obtain ⟨bodies, hbodies, hrest⟩ := ih hothers []
          refine ⟨⟨run, true⟩ :: bodies, List.forall_mem_cons.mpr ⟨rfl, hbodies⟩, fun rest => ?_⟩
          have hblock := statementsFrom_nested htame (of_decide_eq_true hnested) []
            ('}' :: (visible (spellOut others) ++ rest))
          have hclose : statementsFrom (0 + 1) [] ('}' :: (visible (spellOut others) ++ rest)) =
              statementsFrom 0 [] (visible (spellOut others) ++ rest) := rfl
          have hopen : visible (spellOut (block inner :: others)) ++ rest =
              '{' :: (visible inner ++ '}' :: (visible (spellOut others) ++ rest)) := by
            simp [tokens, withoutComment, Token.text]
          rw [hopen, statementsFrom, if_pos rfl, if_pos rfl, List.reverse_reverse, hblock, hclose]
          exact congrArg _ (hrest rest)

theorem brace?_eq_none {token : Token} (h : (plain token).isProper = true) :
    token.brace? = none := by
  cases hbrace : token.brace? with
  | none => rfl
  | some brace =>
      cases brace with
      | opening =>
          rw [Token.eq_of_brace?_opening hbrace] at h
          exact absurd h (by decide)
      | closing =>
          rw [Token.eq_of_brace?_closing hbrace] at h
          exact absurd h (by decide)

theorem depthThrough?_spellOut {pieces : List Piece} (h : pieces.all isProper = true)
    (depth : Nat) : depthThrough? depth (spellOut pieces) = some depth := by
  induction pieces with
  | nil => rfl
  | cons piece others ih =>
      obtain ⟨hpiece, hothers⟩ := Bool.and_eq_true_iff.mp h
      have hhere : depthThrough? depth piece.tokens = some depth := by
        cases piece with
        | plain token =>
            rw [tokens, depthThrough?, brace?_eq_none hpiece]
            rfl
        | block inner =>
            have hinner := of_decide_eq_true (Bool.and_eq_true_iff.mp hpiece).2
            have hdeeper := Token.depthThrough?_add hinner (depth + 1)
            rw [Nat.zero_add] at hdeeper
            rw [tokens, depthThrough?, Token.brace?, Brace.ofChar?]
            exact Token.depthThrough?_append hdeeper
      rw [spellOut_cons, Token.depthThrough?_append hhere, ih hothers]

theorem isTame_of_mem_spellOut {pieces : List Piece} (h : pieces.all isProper = true) :
    (spellOut pieces).all Token.isTame = true := by
  induction pieces with
  | nil => rfl
  | cons piece others ih =>
      obtain ⟨hpiece, hothers⟩ := Bool.and_eq_true_iff.mp h
      rw [spellOut_cons, List.all_append, ih hothers]
      cases piece with
      | plain token => simpa [tokens] using (Bool.and_eq_true_iff.mp hpiece).1
      | block inner => simpa [tokens, Token.isTame] using (Bool.and_eq_true_iff.mp hpiece).1

theorem spellOut_map_plain (tokens : List Token) : spellOut (tokens.map plain) = tokens := by
  induction tokens with
  | nil => rfl
  | cons token others ih => rw [List.map_cons, spellOut_cons, ih]; rfl

theorem runBehind_map_plain (run : Text) (tokens : List Token) :
    runBehind run (tokens.map plain) = run ++ visible tokens := by
  induction tokens generalizing run with
  | nil => exact (List.append_nil run).symm
  | cons token others ih =>
      rw [List.map_cons, runBehind, ih, Token.visible_cons, List.append_assoc]

/-- Whether the piece is a block. -/
def isBlock : Piece → Bool
  | plain _ => false
  | block _ => true

theorem runBehind_of_plain {pieces : List Piece} (h : pieces.any isBlock = false) (run : Text) :
    runBehind run pieces = run ++ visible (spellOut pieces) := by
  induction pieces generalizing run with
  | nil => exact (List.append_nil run).symm
  | cons piece others ih =>
      obtain ⟨hpiece, hothers⟩ := Bool.or_eq_false_iff.mp h
      cases piece with
      | block inner => cases hpiece
      | plain token =>
          rw [runBehind, ih hothers, spellOut_cons, Token.visible_append, List.append_assoc]
          simp [tokens]

theorem runBehind_append (run : Text) (front back : List Piece) :
    runBehind run (front ++ back) = runBehind (runBehind run front) back := by
  induction front generalizing run with
  | nil => rfl
  | cons piece others ih => cases piece <;> exact ih _

end Piece

/-- A part of a type body that is ended by itself. -/
inductive Entry where
  /-- Some pieces and a semicolon. -/
  | statement (pieces : List Piece)
  /-- Some pieces and, in braces, a body. -/
  | definition (pieces : List Piece) (body : List Token)
  deriving DecidableEq, Repr

namespace Entry

/-- The pieces of the entry. -/
def pieces : Entry → List Piece
  | statement pieces => pieces
  | definition pieces body => pieces ++ [.block body]

/-- The entry as it is written. -/
def tokens : Entry → List Token
  | statement pieces => Piece.spellOut pieces ++ [.code ';']
  | definition pieces body => Piece.spellOut (pieces ++ [.block body])

theorem depthThrough?_tokens {entry : Entry} (h : entry.pieces.all Piece.isProper = true)
    (depth : Nat) : depthThrough? depth entry.tokens = some depth := by
  have hpieces := Piece.depthThrough?_spellOut h depth
  cases entry with
  | statement pieces =>
      rw [Entry.pieces] at hpieces
      rw [tokens, Token.depthThrough?_append hpieces]
      rfl
  | definition pieces body => exact hpieces

theorem isTame_of_mem_tokens {entry : Entry} (h : entry.pieces.all Piece.isProper = true) :
    entry.tokens.all Token.isTame = true := by
  have hpieces := Piece.isTame_of_mem_spellOut h
  cases entry with
  | statement pieces =>
      rw [tokens, List.all_append]
      exact Bool.and_eq_true_iff.mpr ⟨hpieces, rfl⟩
  | definition pieces body => exact hpieces

/-- What is read of the entry as a declaration. -/
def declaration? : Entry → Option Text
  | statement pieces => some (Piece.runBehind [] pieces)
  | definition _ _ => none

end Entry

/-- The name that is read from a statement. -/
def readStatement? (statement : Statement) : Option Text :=
  if statement.hasBody || isSpecial statement.text then none else declaredName? statement.text

theorem filterMap_readStatement?_bodies {bodies : List Statement}
    (h : ∀ statement ∈ bodies, statement.hasBody = true) :
    bodies.filterMap readStatement? = [] := by
  rw [List.filterMap_eq_nil_iff]
  intro statement hmem
  rw [readStatement?, h statement hmem]
  rfl

/-- One entry is read, and then the text behind it. -/
theorem filterMap_statementsFrom_entry {entry : Entry}
    (h : entry.pieces.all Piece.isProper = true) (rest : Text) :
    (statementsFrom 0 [] (visible entry.tokens ++ rest)).filterMap readStatement? =
      (entry.declaration?.bind readName?).toList ++
        (statementsFrom 0 [] rest).filterMap readStatement? := by
  obtain ⟨bodies, hbodies, hbehind⟩ := Piece.statementsFrom_spellOut h []
  have hnames := filterMap_readStatement?_bodies hbodies
  cases entry with
  | statement pieces =>
      have htext : visible (Entry.statement pieces).tokens ++ rest =
          visible (Piece.spellOut pieces) ++ ';' :: rest := by
        simp [Entry.tokens, withoutComment, Token.text]
      have hend : statementsFrom 0 (Piece.runBehind [] pieces).reverse (';' :: rest) =
          ⟨Piece.runBehind [] pieces, false⟩ :: statementsFrom 0 [] rest := by
        rw [statementsFrom, if_neg (by decide), if_neg (by decide), if_pos rfl, if_pos rfl,
          List.reverse_reverse]
      have hhere := hbehind (';' :: rest)
      rw [Entry.pieces, hend] at hhere
      rw [htext, ← List.reverse_nil, hhere, List.filterMap_append, hnames, List.nil_append,
        List.filterMap_cons]
      have hread : readStatement? ⟨Piece.runBehind [] pieces, false⟩ =
          (Entry.statement pieces).declaration?.bind readName? := rfl
      rw [hread]
      cases (Entry.statement pieces).declaration?.bind readName? <;> rfl
  | definition pieces body =>
      have hempty : Piece.runBehind [] (pieces ++ [.block body]) = [] := by
        rw [Piece.runBehind_append]
        rfl
      have hhere := hbehind rest
      rw [Entry.pieces, hempty] at hhere
      rw [Entry.tokens, ← List.reverse_nil, hhere, List.filterMap_append, hnames]
      rfl

/-- The entries of a type body are read one by one, and nothing is read behind the last one. -/
theorem filterMap_statementsFrom_entries {entries : List Entry} {tail : List Token}
    (h : ∀ entry ∈ entries, entry.pieces.all Piece.isProper = true)
    (htail : (tail.map Piece.plain).all Piece.isProper = true) :
    (statementsFrom 0 [] (visible (entries.flatMap Entry.tokens ++ tail))).filterMap
        readStatement? =
      entries.filterMap fun entry => entry.declaration?.bind readName? := by
  induction entries with
  | nil =>
      obtain ⟨bodies, hbodies, hbehind⟩ := Piece.statementsFrom_spellOut htail []
      have hhere := hbehind []
      rw [Piece.spellOut_map_plain, List.append_nil, statementsFrom, List.append_nil] at hhere
      rw [List.flatMap_nil, List.nil_append, ← List.reverse_nil, hhere,
        filterMap_readStatement?_bodies hbodies]
      rfl
  | cons entry others ih =>
      obtain ⟨hentry, hothers⟩ := List.forall_mem_cons.mp h
      rw [List.flatMap_cons, List.append_assoc, Token.visible_append,
        filterMap_statementsFrom_entry hentry, ih hothers, List.filterMap_cons]
      cases entry.declaration?.bind readName? <;> rfl

/-- A header with the type `short`, whose body is written as entries. -/
structure TypeText (short : Text) where
  before : Text
  head : TypeHead short
  entries : List Entry
  /-- What follows the last entry in the body. -/
  tail : List Token
  after : Text
  /-- The text in front of the type opens no body of a type of this name. -/
  isFirst : typeBodyFrom? short none before = none
  beginsWord : Text.inWord before.getLast? = false
  areProper : ∀ entry ∈ entries, entry.pieces.all Piece.isProper = true
  isTailProper : (tail.map Piece.plain).all Piece.isProper = true
  areApart : Token.areApart none (entries.flatMap Entry.tokens ++ tail ++ [.code '}']) = true

namespace TypeText

variable {short : Text} (type : TypeText short)

/-- The tokens between the braces of the type. -/
def bodyTokens : List Token :=
  type.entries.flatMap Entry.tokens ++ type.tail

/-- The header as it is written. -/
def text : Text :=
  type.before ++ (type.head.text ++ '{' :: (Token.spell type.bodyTokens ++ '}' :: type.after))

theorem areApart_bodyTokens :
    Token.areApart none (type.bodyTokens ++ [.code '}']) = true :=
  type.areApart

theorem areNested_bodyTokens : areNested type.bodyTokens = true := by
  have hentries : ∀ entries : List Entry,
      (∀ entry ∈ entries, entry.pieces.all Piece.isProper = true) →
      depthThrough? 0 (entries.flatMap Entry.tokens) = some 0 := by
    intro entries h
    induction entries with
    | nil => rfl
    | cons entry others ih =>
        obtain ⟨hentry, hothers⟩ := List.forall_mem_cons.mp h
        rw [List.flatMap_cons, Token.depthThrough?_append (Entry.depthThrough?_tokens hentry 0),
          ih hothers]
  have htail := Piece.depthThrough?_spellOut type.isTailProper 0
  rw [Piece.spellOut_map_plain] at htail
  rw [areNested, bodyTokens, Token.depthThrough?_append (hentries _ type.areProper), htail]
  rfl

theorem isTame_bodyTokens : type.bodyTokens.all Token.isTame = true := by
  have htail := Piece.isTame_of_mem_spellOut type.isTailProper
  rw [Piece.spellOut_map_plain] at htail
  rw [bodyTokens, List.all_append, htail, List.all_flatMap, Bool.and_true, List.all_eq_true]
  exact fun entry hmem => Entry.isTame_of_mem_tokens (type.areProper entry hmem)

end TypeText

variable {owner : Text}

theorem typeBody?_text (type : TypeText owner.lastComponent) :
    typeBody? type.text owner = some (Token.spell type.bodyTokens) := by
  rw [typeBody?, TypeText.text, type.head.typeBodyFrom?_of_head type.isFirst
      (by simpa using type.beginsWord), Option.bind_some,
    Token.split?_spell type.areApart_bodyTokens type.areNested_bodyTokens, Option.map_some]
  exact congrArg some List.dropLast_concat

/-- The names that are read from a header are those that are read from the entries of the type. -/
theorem members?_text (type : TypeText owner.lastComponent) :
    members? type.text owner = some (NameSet.ofList
      (type.entries.filterMap fun entry => entry.declaration?.bind readName?)) := by
  have hstatements : statements (Token.spell type.bodyTokens) =
      statementsFrom 0 [] (visible type.bodyTokens) := by
    rw [statements, Token.uncomment_spell (Token.areApart_left type.areApart_bodyTokens)
      type.isTame_bodyTokens]
  rw [members?, typeBody?_text, Option.map_some, hstatements,
    ← filterMap_statementsFrom_entries type.areProper type.isTailProper]
  rfl

end MemberSplit.Header
