import MemberSplit.Lexical.FirstCode
import MemberSplit.Lexical.Uncomment
import MemberSplit.Proofs.Lexical.Token
import MemberSplit.Proofs.Text.Filling

/-!
# Tokens without their comments

Comments are taken out of a text by their marks alone, and a quoted literal can hold such marks.
Where no literal does, the comments that are taken out are those of the tokens, and each leaves a
space.
-/

namespace MemberSplit.Lexical

variable {text inner rest : Text}

/-- Whether two characters that open a comment stand in the text. -/
def holdsCommentMark : Text → Bool
  | [] => false
  | c :: rest => opensComment c rest.head? || holdsCommentMark rest

theorem uncommentFrom_cons_of_not_opens {c : Char} (h : opensComment c rest.head? = false) :
    uncommentFrom .outside (c :: rest) = c :: uncommentFrom .outside rest := by
  have hline : ¬((decide (c = '/') && decide (rest.head? = some '/')) = true) := by
    intro hopen
    obtain ⟨hc, hhead⟩ := Bool.and_eq_true_iff.mp hopen
    rw [of_decide_eq_true hc, of_decide_eq_true hhead] at h
    cases h
  have hblock : ¬((decide (c = '/') && opensBlock rest) = true) := by
    intro hopen
    obtain ⟨hc, hinner⟩ := Bool.and_eq_true_iff.mp hopen
    rw [of_decide_eq_true hc] at h
    unfold opensBlock at hinner
    split at hinner
    next => cases h
    next => cases hinner
  rw [uncommentFrom, if_neg hline, if_neg hblock]

/-- A text without comment marks is kept, if it does not end in half of one. -/
theorem uncommentFrom_append (hmark : holdsCommentMark text = false)
    (hlast : text.getLast? ≠ some '/') (rest : Text) :
    uncommentFrom .outside (text ++ rest) = text ++ uncommentFrom .outside rest := by
  induction text with
  | nil => rfl
  | cons c others ih =>
      obtain ⟨hhere, hothers⟩ := Bool.or_eq_false_iff.mp hmark
      have hopen : opensComment c (others ++ rest).head? = false := by
        cases others with
        | nil =>
            have hc : c ≠ '/' := fun hc => hlast (congrArg some hc)
            simp [opensComment, hc]
        | cons d more => exact hhere
      have hlater : others.getLast? ≠ some '/' := by
        intro hslash
        rw [List.getLast?_cons, hslash] at hlast
        exact hlast rfl
      rw [List.cons_append, uncommentFrom_cons_of_not_opens hopen, ih hothers hlater,
        List.cons_append]

theorem uncommentFrom_inLine (hinner : inner.all (· != '\n') = true)
    (hrest : rest.head?.all (· == '\n') = true) :
    uncommentFrom .inLine (inner ++ rest) = uncommentFrom .outside rest := by
  induction inner with
  | nil =>
      cases rest with
      | nil => rfl
      | cons c others =>
          obtain rfl : c = '\n' := by simpa using hrest
          rfl
  | cons c others ih =>
      obtain ⟨hc, hothers⟩ := Bool.and_eq_true_iff.mp hinner
      have hline : c ≠ '\n' := by simpa using hc
      rw [List.cons_append, uncommentFrom, if_neg hline, ih hothers]

theorem uncommentFrom_inBlock (afterStar : Bool)
    (hinner : Text.contains inner ['*', '/'] = false)
    (hstar : afterStar = true → inner.head? ≠ some '/') (rest : Text) :
    uncommentFrom (.inBlock afterStar) (inner ++ '*' :: '/' :: rest) =
      uncommentFrom .outside rest := by
  induction inner generalizing afterStar with
  | nil => simp [uncommentFrom]
  | cons c others ih =>
      obtain ⟨hhere, hothers⟩ := Bool.or_eq_false_iff.mp hinner
      have hopen : ¬((afterStar && decide (c = '/')) = true) := by
        intro hclose
        obtain ⟨hafter, hc⟩ := Bool.and_eq_true_iff.mp hclose
        exact hstar hafter (congrArg some (of_decide_eq_true hc))
      rw [List.cons_append, uncommentFrom, if_neg hopen]
      apply ih _ hothers
      intro hc hslash
      obtain ⟨more, rfl⟩ := List.head?_eq_some_iff.mp hslash
      obtain rfl := eq_of_beq hc
      simp at hhere

/-- A block comment that is closed becomes a space. -/
theorem uncommentFrom_blockComment (hinner : Text.contains inner ['*', '/'] = false)
    (rest : Text) : uncommentFrom .outside ('/' :: '*' :: (inner ++ '*' :: '/' :: rest)) =
      ' ' :: uncommentFrom .outside rest := by
  have hopens : opensBlock ('*' :: (inner ++ '*' :: '/' :: rest)) = true :=
    Text.contains_iff_isInfix.mpr ⟨inner, rest, by simp⟩
  have hline : ¬(('/' = '/' && ('*' :: (inner ++ '*' :: '/' :: rest)).head? = some '/') =
      true) := by simp
  rw [uncommentFrom, if_neg hline, if_pos (by simpa using hopens), uncommentFrom,
    uncommentFrom_inBlock false hinner (by simp)]

namespace Token

/-- The token as it is written, or a space for a comment. -/
def withoutComment : Token → Text
  | lineComment _ => [' ']
  | blockComment _ => [' ']
  | token => token.text

/-- The text that some tokens make up, with a space for each comment. -/
def visible (tokens : List Token) : Text :=
  tokens.flatMap withoutComment

/-- Whether the token holds no brace and no comment mark that belongs to a literal. -/
def isTame : Token → Bool
  | literal mark inner =>
    (literal mark inner).text.all (fun c => c != '{' && c != '}') &&
      !holdsCommentMark (literal mark inner).text
  | _ => true

@[simp] theorem spell_cons (token : Token) (rest : List Token) :
    spell (token :: rest) = token.text ++ spell rest := rfl

@[simp] theorem spell_append (front rest : List Token) :
    spell (front ++ rest) = spell front ++ spell rest :=
  List.flatMap_append

@[simp] theorem visible_nil : visible [] = [] := rfl

@[simp] theorem visible_cons (token : Token) (rest : List Token) :
    visible (token :: rest) = token.withoutComment ++ visible rest := rfl

@[simp] theorem visible_append (front rest : List Token) :
    visible (front ++ rest) = visible front ++ visible rest :=
  List.flatMap_append


theorem fits_none {token : Token} {before following : Option Char}
    (h : token.fits before following = true) : token.fits before none = true := by
  cases token with
  | literal mark inner => exact h
  | code | slash | lineComment | blockComment => rfl

theorem areApart_left {front rest : List Token} {before : Option Char}
    (h : areApart before (front ++ rest) = true) : areApart before front = true := by
  induction front generalizing before with
  | nil => rfl
  | cons token others ih =>
      obtain ⟨hhere, hothers⟩ := Bool.and_eq_true_iff.mp h
      obtain ⟨hclosed, hfits⟩ := Bool.and_eq_true_iff.mp hhere
      have hnext : token.fits before (spell others).head? = true := by
        cases hspell : spell others with
        | nil => exact fits_none hfits
        | cons c more =>
            have happend : spell (others.append rest) = c :: (more ++ spell rest) := by
              rw [← List.cons_append, ← hspell]
              exact spell_append others rest
            rw [happend] at hfits
            exact hfits
      rw [areApart, hclosed, hnext, ih hothers]
      rfl

/-- The comments that are taken out of a text are those of its tokens, if no literal holds comment
marks. -/
theorem uncomment_spell {tokens : List Token} {before : Option Char}
    (h : areApart before tokens = true) (htame : tokens.all isTame = true) :
    uncomment (spell tokens) = visible tokens := by
  unfold uncomment
  induction tokens generalizing before with
  | nil => rfl
  | cons token rest ih =>
      obtain ⟨hhere, hrest⟩ := Bool.and_eq_true_iff.mp h
      obtain ⟨hclosed, hfits⟩ := Bool.and_eq_true_iff.mp hhere
      obtain ⟨htoken, hothers⟩ := Bool.and_eq_true_iff.mp htame
      rw [spell_cons, visible_cons, ← ih hrest hothers]
      cases token with
      | code c =>
          have hc : c ≠ '/' := by
            rintro rfl
            simp [isClosed] at hclosed
          exact uncommentFrom_cons_of_not_opens (by simp [opensComment, hc])
      | slash =>
          apply uncommentFrom_cons_of_not_opens
          simpa [fits, opensComment] using hfits
      | lineComment inner =>
          have hmark : uncommentFrom .outside ((lineComment inner).text ++ spell rest) =
              ' ' :: uncommentFrom .inLine (('/' :: inner) ++ spell rest) := rfl
          rw [hmark, uncommentFrom_inLine (by simpa [isClosed] using hclosed) hfits]
          rfl
      | blockComment inner =>
          have hinner : Text.contains inner ['*', '/'] = false := by
            simpa [isClosed] using hclosed
          have htext : (blockComment inner).text ++ spell rest =
              '/' :: '*' :: (inner ++ '*' :: '/' :: spell rest) := by simp [text]
          rw [htext, uncommentFrom_blockComment hinner]
          rfl
      | literal mark pieces =>
          obtain ⟨-, hmarks⟩ := Bool.and_eq_true_iff.mp htoken
          have hlast : (literal mark pieces).text.getLast? ≠ some '/' := by
            rw [getLast?_literal]
            rintro hmark
            obtain rfl := Option.some.inj hmark
            simp [isClosed] at hclosed
          exact uncommentFrom_append (by simpa using hmarks) hlast _

end Token

end MemberSplit.Lexical
