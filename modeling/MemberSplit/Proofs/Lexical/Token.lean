import MemberSplit.Proofs.Brace.Passage

/-!
# Comments and literals as white space

A source that is made of code, comments and quoted literals can be written down as its tokens, which
say where the comments and literals lie. Lexical scanning has to find that out from the characters;
it sees the same braces as literal scanning does once the comments and literals are blanked.
-/

namespace MemberSplit

theorem Text.byteLength_replicate_space (count : Nat) :
    byteLength (List.replicate count ' ') = count := by
  induction count with
  | zero => rfl
  | succ count ih =>
      have hone : Char.utf8Size ' ' = 1 := by decide
      rw [List.replicate_succ, byteLength, ih, hone, Nat.add_comm]

namespace Lexical

/-- A piece of a quoted literal. -/
inductive LiteralPiece where
  | plain (c : Char)
  /-- A backslash, and the character whose meaning it takes. -/
  | escape (c : Char)
  deriving DecidableEq, Repr

/-- A piece of a source. -/
inductive Token where
  /-- A character that begins neither a comment nor a literal. -/
  | code (c : Char)
  /-- A slash that begins no comment. -/
  | slash
  | lineComment (inner : Text)
  | blockComment (inner : Text)
  /-- A literal between two marks. -/
  | literal (mark : Char) (inner : List LiteralPiece)
  deriving DecidableEq, Repr

namespace LiteralPiece

/-- The piece as it is written. -/
def text : LiteralPiece → Text
  | plain c => [c]
  | escape c => ['\\', c]

/-- Whether a piece can be part of a literal between two marks: it does not end the literal, which
for a character literal a newline would do too. -/
def staysInside (mark : Char) : LiteralPiece → Bool
  | plain c => c != mark && c != '\\' && (mark != '\'' || c != '\n')
  | escape _ => true

end LiteralPiece

namespace Token

/-- The token as it is written. -/
def text : Token → Text
  | code c => [c]
  | slash => ['/']
  | lineComment inner => '/' :: '/' :: inner
  | blockComment inner => '/' :: '*' :: (inner ++ ['*', '/'])
  | literal mark inner => mark :: (inner.flatMap LiteralPiece.text ++ [mark])

/-- The token with as many spaces as it has bytes, if it is a comment or a literal. -/
def blanked : Token → Text
  | code c => [c]
  | slash => ['/']
  | token => List.replicate token.text.byteLength ' '

/-- Whether the token ends where it seems to end. -/
def isClosed : Token → Bool
  | code c => c != '"' && c != '\'' && c != '/'
  | slash => true
  | lineComment inner => inner.all (· != '\n')
  | blockComment inner => !Text.contains inner ['*', '/']
  | literal mark inner => (mark == '"' || mark == '\'') && inner.all (LiteralPiece.staysInside mark)

/-- Whether the token can stand between two characters: a slash begins no comment, a line comment
goes on to the end of its line, and a character literal does not follow a digit. -/
def fits (before following : Option Char) : Token → Bool
  | slash => following != some '/' && following != some '*'
  | lineComment _ => following.all (· == '\n')
  | literal mark _ => mark == '"' || !before.any Char.isDigit
  | _ => true

/-- The text that some tokens make up. -/
def spell (tokens : List Token) : Text :=
  tokens.flatMap text

/-- That text with its comments and literals blanked. -/
def blank (tokens : List Token) : Text :=
  tokens.flatMap blanked

/-- Whether the tokens can stand behind each other, with a given character in front of them. -/
def areApart : (before : Option Char) → List Token → Bool
  | _, [] => true
  | before, token :: rest =>
    token.isClosed && token.fits before (spell rest).head? && areApart token.text.getLast? rest

end Token

variable {mode : ScanMode} {context : Context} {inner rest : Text}

theorem passes_lineComment (hinner : inner.all (· != '\n') = true) (afterDigit : Bool)
    (rest : Text) :
    Brace.Passes .lexical rest (.code afterDigit) ('/' :: '/' :: inner) .lineComment := by
  refine ⟨rfl, rfl, Brace.passes_of_forall (fun _ _ => rfl) ?_ rest⟩
  intro c hmem following
  have hc : c ≠ '\n' := by simpa using List.all_eq_true.mp hinner c hmem
  exact if_neg hc

/-- A block comment without its end inside ends with its end. -/
theorem passes_blockEnd (afterStar : Bool)
    (hinner : Text.contains inner ['*', '/'] = false)
    (hstar : afterStar = true → inner.head? ≠ some '/') (rest : Text) :
    Brace.Passes .lexical rest (.blockComment afterStar) (inner ++ ['*', '/'])
      (.code false) := by
  induction inner generalizing afterStar with
  | nil => cases afterStar <;> exact ⟨rfl, rfl, rfl⟩
  | cons c others ih =>
      obtain ⟨hhere, hothers⟩ := Bool.or_eq_false_iff.mp hinner
      have hopen : (afterStar && decide (c = '/')) = false := by
        cases afterStar with
        | false => rfl
        | true => simpa using hstar rfl
      refine ⟨rfl, ?_⟩
      simp only [Brace.nextContext, Context.next, hopen]
      refine ih _ hothers ?_
      intro hc hslash
      cases others with
      | nil => cases hslash
      | cons d more =>
          obtain rfl : d = '/' := Option.some.inj hslash
          obtain rfl : c = '*' := by simpa using hc
          simp at hhere

theorem passes_pieces {mark : Char} {pieces : List LiteralPiece}
    (h : pieces.all (LiteralPiece.staysInside mark) = true) (rest : Text) :
    Brace.Passes .lexical rest (.quoted mark false) (pieces.flatMap LiteralPiece.text)
      (.quoted mark false) := by
  induction pieces with
  | nil => rfl
  | cons piece others ih =>
      obtain ⟨hpiece, hothers⟩ := Bool.and_eq_true_iff.mp h
      rw [List.flatMap_cons]
      refine Brace.Passes.append ?_ (ih hothers)
      cases piece with
      | escape c => exact ⟨rfl, rfl, rfl⟩
      | plain c =>
          obtain ⟨⟨hmark, hescape⟩, hline⟩ :
              (c ≠ mark ∧ c ≠ '\\') ∧ (mark = '\'' → c ≠ '\n') := by
            simpa [LiteralPiece.staysInside, Decidable.imp_iff_not_or] using hpiece
          refine ⟨rfl, ?_⟩
          have hnone : ¬(mark = '\'' ∧ c = '\n') := fun hboth => hline hboth.1 hboth.2
          simp [Brace.Passes, Brace.nextContext, Context.next, hmark, hescape, hnone]

theorem passes_blockComment (hinner : Text.contains inner ['*', '/'] = false) (afterDigit : Bool)
    (rest : Text) :
    Brace.Passes .lexical rest (.code afterDigit) ('/' :: '*' :: (inner ++ ['*', '/']))
      (.code false) :=
  ⟨rfl, rfl, passes_blockEnd false hinner (by simp) rest⟩

/-- A mark begins a literal, if it is not a single quote behind a digit. -/
theorem passes_literal {mark : Char} {pieces : List LiteralPiece} {afterDigit : Bool}
    (hmark : mark = '"' ∨ mark = '\'' ∧ afterDigit = false)
    (hpieces : pieces.all (LiteralPiece.staysInside mark) = true) (rest : Text) :
    Brace.Passes .lexical rest (.code afterDigit)
      (mark :: (pieces.flatMap LiteralPiece.text ++ [mark])) (.code false) := by
  obtain rfl | ⟨rfl, rfl⟩ := hmark
  · exact ⟨rfl, (passes_pieces hpieces _).append ⟨rfl, rfl⟩⟩
  · exact ⟨rfl, (passes_pieces hpieces _).append ⟨rfl, rfl⟩⟩

/-- From a context on, lexical scanning of a text meets the braces that literal scanning of another
text meets, and finds the end of a block at the same place. -/
structure ScansLike (context : Context) (text other : Text) : Prop where
  braces : Brace.listFrom .lexical context text = Brace.listFrom .literal .start other
  block : ∀ depth, Block.lengthFrom? .lexical context depth text =
    Block.lengthFrom? .literal .start depth other

namespace ScansLike

variable {other : Text} {afterDigit : Bool}

theorem nil (context : Context) : ScansLike context [] [] :=
  ⟨rfl, fun _ => rfl⟩

/-- A character of code is the same to both ways of scanning. -/
theorem code {c : Char} (h : ScansLike (context.next c rest.head?) rest other)
    (hcontext : context.isCode = true) : ScansLike context (c :: rest) (c :: other) := by
  have hbrace : Brace.ofChar? context c = Brace.ofChar? .start c := by
    have hstart : Context.start.isCode = true := rfl
    rw [Brace.ofChar?, hcontext, Brace.ofChar?, hstart]
  refine ⟨?_, ?_⟩
  · simp only [Brace.listFrom, Brace.nextContext, hbrace, h.braces]
  · intro depth
    simp only [Block.lengthFrom?_cons, Brace.nextContext, hbrace, h.block]

/-- Runs of one length that are passed make no difference. -/
theorem pass {run run' : Text} {final : Context}
    (hlexical : Brace.Passes .lexical rest context run final)
    (hliteral : Brace.Passes .literal other .start run' .start)
    (hlength : run'.byteLength = run.byteLength) (h : ScansLike final rest other) :
    ScansLike context (run ++ rest) (run' ++ other) := by
  refine ⟨?_, ?_⟩
  · rw [hlexical.listFrom_append, hliteral.listFrom_append, h.braces]
  · intro depth
    rw [Block.lengthFrom?_append hlexical, Block.lengthFrom?_append hliteral, h.block, hlength]

/-- What lexical scanning passes is like white space. -/
theorem skip {run : Text} {final : Context} (hpasses : Brace.Passes .lexical rest context run final)
    (h : ScansLike final rest other) :
    ScansLike context (run ++ rest) (List.replicate run.byteLength ' ' ++ other) := by
  refine h.pass hpasses ?_ (Text.byteLength_replicate_space _)
  exact Brace.passes_of_forall
    (fun c hmem => by rw [List.eq_of_mem_replicate hmem]; rfl) (fun _ _ _ => rfl) other

/-- At a newline, or at the end of the text, a line comment is as good as code. -/
theorem of_lineEnd (h : ScansLike (.code afterDigit) rest other)
    (hrest : rest.head?.all (· == '\n') = true) : ScansLike .lineComment rest other := by
  cases rest with
  | nil => exact ⟨h.braces, h.block⟩
  | cons c others =>
      obtain rfl : c = '\n' := by simpa using hrest
      refine ⟨h.braces, ?_⟩
      intro depth
      rw [← h.block, Block.lengthFrom?_cons, Block.lengthFrom?_cons]
      rfl

end ScansLike

namespace Token

theorem getLast?_blockComment (inner : Text) : (blockComment inner).text.getLast? = some '/' := by
  rw [text, ← List.cons_append, ← List.cons_append, List.getLast?_append]
  rfl

theorem getLast?_literal (mark : Char) (inner : List LiteralPiece) :
    (literal mark inner).text.getLast? = some mark := by
  rw [text, ← List.cons_append, List.getLast?_append]
  rfl

/-- Lexical scanning of a text sees the braces that are left when the comments and literals of its
tokens are blanked. -/
theorem scansLike_blank {tokens : List Token} {before : Option Char}
    (h : areApart before tokens = true) :
    ScansLike (.code (before.any Char.isDigit)) (spell tokens) (blank tokens) := by
  induction tokens generalizing before with
  | nil => exact .nil _
  | cons token rest ih =>
      obtain ⟨hhere, hrest⟩ := Bool.and_eq_true_iff.mp h
      obtain ⟨hclosed, hfits⟩ := Bool.and_eq_true_iff.mp hhere
      have hlater := ih hrest
      cases token with
      | code c =>
          obtain ⟨⟨hdouble, hsingle⟩, hslash⟩ : (c ≠ '"' ∧ c ≠ '\'') ∧ c ≠ '/' := by
            simpa [isClosed] using hclosed
          refine ScansLike.code ?_ rfl
          rw [Context.next, if_neg hslash, if_neg hdouble, if_neg hsingle]
          exact hlater
      | slash =>
          obtain ⟨hline, hblock⟩ : (spell rest).head? ≠ some '/' ∧
              (spell rest).head? ≠ some '*' := by
            simpa [fits] using hfits
          have hnext : Context.next (.code (before.any Char.isDigit)) '/' (spell rest).head? =
              .code false := by
            simp [Context.next, hline, hblock]
          refine ScansLike.code ?_ rfl
          exact hnext ▸ hlater
      | lineComment inner =>
          exact .skip (passes_lineComment hclosed _ _) (hlater.of_lineEnd hfits)
      | blockComment inner =>
          have hinner : Text.contains inner ['*', '/'] = false := by
            simpa [isClosed] using hclosed
          rw [getLast?_blockComment] at hlater
          exact .skip (passes_blockComment hinner _ _) hlater
      | literal mark pieces =>
          obtain ⟨hmark, hpieces⟩ := Bool.and_eq_true_iff.mp hclosed
          have hquote : mark = '"' ∨ mark = '\'' := by simpa using hmark
          have hafter : mark = '"' ∨ mark = '\'' ∧ before.any Char.isDigit = false := by
            rcases hquote with hdouble | hsingle
            · exact .inl hdouble
            · refine .inr ⟨hsingle, ?_⟩
              simpa [fits, hsingle] using hfits
          have hbehind : ScansLike (.code false) (spell rest) (blank rest) := by
            rw [getLast?_literal] at hlater
            rcases hquote with rfl | rfl <;> exact hlater
          exact .skip (passes_literal hafter hpieces _) hbehind

theorem areApart_of_append {front : List Token} {token : Token} {rest : List Token}
    {before : Option Char} (h : areApart before (front ++ token :: rest) = true) :
    areApart token.text.getLast? rest = true := by
  induction front generalizing before with
  | nil => exact (Bool.and_eq_true_iff.mp h).2
  | cons other others ih => exact ih (Bool.and_eq_true_iff.mp h).2

theorem byteLength_blank (tokens : List Token) :
    (blank tokens).byteLength = (spell tokens).byteLength := by
  induction tokens with
  | nil => rfl
  | cons token rest ih =>
      have htoken : token.blanked.byteLength = token.text.byteLength := by
        cases token with
        | code c => rfl
        | slash => rfl
        | lineComment inner => exact Text.byteLength_replicate_space _
        | blockComment inner => exact Text.byteLength_replicate_space _
        | literal mark inner => exact Text.byteLength_replicate_space _
      simp only [blank, spell, List.flatMap_cons, Text.byteLength_append] at ih ⊢
      rw [htoken, ih]

theorem closingBrace?_eq_lengthFrom? (front rest : Text) (mode : ScanMode) :
    Block.closingBrace? (front ++ '{' :: rest) front.byteLength mode =
      (Block.lengthFrom? mode .start 0 rest).map (front.byteLength + ·) := by
  rw [Block.closingBrace?, Text.dropBytes_append, Block.lengthFrom?, Option.map_map]
  rfl

/-- A text that is made of tokens, and the same text with its comments and literals blanked, have
the same length. Lexical scanning of the one and literal scanning of the other find the same partner
for each brace of the code, and the same balance. -/
theorem closingBrace?_and_balance_eq_blank {tokens : List Token}
    (h : areApart none tokens = true) :
    (blank tokens).byteLength = (spell tokens).byteLength ∧
      (∀ front rest, tokens = front ++ code '{' :: rest →
        Block.closingBrace? (spell tokens) (spell front).byteLength .lexical =
          Block.closingBrace? (blank tokens) (spell front).byteLength .literal) ∧
      Balance.ofText .lexical (spell tokens) = Balance.ofText .literal (blank tokens) := by
  refine ⟨byteLength_blank tokens, ?_, ?_⟩
  · rintro front rest rfl
    have hrest := scansLike_blank (areApart_of_append h)
    have hspell : spell (front ++ code '{' :: rest) = spell front ++ '{' :: spell rest := by
      simp [spell, text]
    have hblank : blank (front ++ code '{' :: rest) = blank front ++ '{' :: blank rest := by
      rw [blank, List.flatMap_append, List.flatMap_cons]
      rfl
    rw [hspell, closingBrace?_eq_lengthFrom?, hblank, ← byteLength_blank,
      closingBrace?_eq_lengthFrom?]
    exact congrArg _ (hrest.block 0)
  · rw [Balance.ofText, Brace.list, Balance.ofText, Brace.list]
    exact congrArg _ (scansLike_blank h).braces

/-- Quotes and braces in comments, a comment mark in a literal, and an escape in front of a
character of several bytes. -/
theorem closingBrace?_and_balance_eq_blank_mixed :
    let front : List Token := [code 'a', literal '"' [.plain '/', .plain '/', .escape 'é'], slash]
    let rest : List Token :=
      [literal '\'' [.escape '\''], code ' ', lineComment "it\x27s \x7d".toList, code '\n',
        blockComment "/ \" \x7b *".toList, code '}', literal '"' [.plain '}', .plain '\n']]
    let tokens := front ++ code '{' :: rest
    areApart none tokens = true ∧
      Block.closingBrace? (spell tokens) (spell front).byteLength .lexical = some 35 ∧
      Block.closingBrace? (blank tokens) (spell front).byteLength .literal = some 35 ∧
      Balance.ofText .lexical (spell tokens) = .zero := by
  intro front rest tokens
  have happart : areApart none tokens = true := by decide
  obtain ⟨-, hblock, hbalance⟩ := closingBrace?_and_balance_eq_blank happart
  have hplace : Block.closingBrace? (blank tokens) (spell front).byteLength .literal = some 35 := by
    decide
  exact ⟨happart, (hblock front rest rfl).trans hplace, hplace, hbalance.trans (by decide)⟩

end Token

end Lexical

end MemberSplit
