import Mathlib.Data.List.DropRight
import MemberSplit.Proofs.Signature.Surroundings

/-!
# White space and comments that end

A text without code is white space and comments. Behind it the code goes on, unless its last comment
is a block comment that is never closed: then what follows is part of the comment.
-/

namespace MemberSplit.Lexical

variable {context : Context} {offset : Nat} {text inner rest : Text}

/-- The comment that a slash and a star open is not closed in the text. -/
def IsOpenBlock (text : Text) : Prop :=
  ∃ inner, text = "/*".toList ++ inner ∧ ¬"*/".toList <:+: inner

/-- The text is white space and closed comments, and perhaps a block comment that is not closed. -/
def HoldsNoCode (text : Text) : Prop :=
  ∃ closed behind, text = closed ++ behind ∧ IsFillerText closed ∧
    (behind = [] ∨ IsOpenBlock behind)

theorem isWordChar_of_isFiller {c : Char} (h : isFiller c = true) : isWordChar c = false := by
  rcases Bool.or_eq_true_iff.mp h with hblank | hmark
  · exact isWordChar_of_isBlank hblank
  · rw [eq_of_beq hmark]
    decide +kernel

theorem firstCodeFrom?_cons_of_not_isCode (hcontext : context.isCode = false) (offset : Nat)
    (c : Char) (rest : Text) : firstCodeFrom? context offset (c :: rest) =
      firstCodeFrom? (context.next c rest.head?) (offset + c.utf8Size) rest := by
  rw [firstCodeFrom?, hcontext]
  rfl

/-- Where the first code of a text is does not depend on where the text starts. -/
theorem firstCodeFrom?_eq_map (context : Context) (offset : Nat) (text : Text) :
    firstCodeFrom? context offset text = (firstCodeFrom? context 0 text).map (offset + ·) := by
  induction text generalizing context offset with
  | nil => rfl
  | cons c rest ih =>
      unfold firstCodeFrom?
      split
      next => rfl
      next =>
        rw [ih _ (offset + c.utf8Size), ih _ (0 + c.utf8Size), Option.map_map]
        congr 1
        funext length
        simp only [Function.comp_apply]
        omega

theorem le_of_firstCodeFrom? {found : Nat} (h : firstCodeFrom? context offset text = some found) :
    offset ≤ found := by
  rw [firstCodeFrom?_eq_map] at h
  obtain ⟨length, -, rfl⟩ := Option.map_eq_some_iff.mp h
  exact Nat.le_add_right _ _

theorem firstCodeFrom?_cons_eq_none_iff {c : Char} :
    firstCodeFrom? context offset (c :: rest) = none ↔
      (context.isCode && !isFiller c && !opensComment c rest.head?) = false ∧
        firstCodeFrom? (context.next c rest.head?) (offset + c.utf8Size) rest = none := by
  cases hfound : context.isCode && !isFiller c && !opensComment c rest.head? with
  | true => simp [firstCodeFrom?, hfound]
  | false => simp [firstCodeFrom?, hfound]

section Closed

theorem firstCodeFrom?_cons_of_isFiller {c : Char} (h : isFiller c = true) (offset : Nat)
    (rest : Text) : firstCodeFrom? (.code false) offset (c :: rest) =
      firstCodeFrom? (.code false) (offset + c.utf8Size) rest := by
  have hother : ∀ d : Char, isFiller d = false → c ≠ d := by
    rintro d hd rfl
    rw [h] at hd
    cases hd
  have hdigit : c.isDigit = false := by
    have hword := isWordChar_of_isFiller h
    rw [Bool.eq_false_iff] at hword ⊢
    intro hdigit
    exact hword (isWordChar_of_isAlphanum (by simp [Char.isAlphanum, hdigit]))
  have hnext : (Context.code false).next c rest.head? = .code false := by
    simp [Context.next, hother '/' (by decide), hother '"' (by decide), hother '\'' (by decide),
      hdigit]
  rw [firstCodeFrom?, h, hnext]
  simp

theorem firstCodeFrom?_lineComment (hinner : '\n' ∉ inner) (offset : Nat) (rest : Text) :
    firstCodeFrom? .lineComment offset (inner ++ '\n' :: rest) =
      firstCodeFrom? (.code false) (offset + Text.byteLength (inner ++ ['\n'])) rest := by
  induction inner generalizing offset with
  | nil => exact firstCodeFrom?_cons_of_not_isCode rfl _ _ _
  | cons c others ih =>
      obtain ⟨hc, hothers⟩ := List.ne_and_not_mem_of_not_mem_cons hinner
      have hnext : Context.lineComment.next c (others ++ '\n' :: rest).head? = .lineComment :=
        if_neg (Ne.symm hc)
      rw [List.cons_append, firstCodeFrom?_cons_of_not_isCode rfl, hnext, ih hothers,
        List.cons_append, Text.byteLength, Nat.add_assoc]

/-- A character in front of the end of a block comment does not close it. -/
theorem next_blockComment {afterStar : Bool} {c : Char}
    (hstar : afterStar = true → c ≠ '/') (following : Option Char) :
    (Context.blockComment afterStar).next c following = .blockComment (c == '*') := by
  have hopen : (afterStar && decide (c = '/')) = false := by
    cases afterStar with
    | false => rfl
    | true => simpa using hstar rfl
  simp [Context.next, hopen]

theorem head?_ne_slash {c : Char} (h : ¬"*/".toList <:+: c :: rest) :
    (c == '*') = true → rest.head? ≠ some '/' := by
  rintro hc hslash
  obtain ⟨others, rfl⟩ := List.head?_eq_some_iff.mp hslash
  rw [eq_of_beq hc] at h
  exact h ⟨[], others, rfl⟩

theorem firstCodeFrom?_blockComment {afterStar : Bool}
    (hinner : ¬"*/".toList <:+: inner ++ ['*'])
    (hstar : afterStar = true → (inner ++ ['*']).head? ≠ some '/') (offset : Nat) (rest : Text) :
    firstCodeFrom? (.blockComment afterStar) offset (inner ++ ("*/".toList ++ rest)) =
      firstCodeFrom? (.code false) (offset + Text.byteLength (inner ++ "*/".toList)) rest := by
  induction inner generalizing afterStar offset with
  | nil =>
      have hnext : (Context.blockComment afterStar).next '*' ('/' :: rest).head? =
          .blockComment true := next_blockComment (fun _ => by decide) _
      have hclose : (Context.blockComment true).next '/' rest.head? = .code false := rfl
      simp only [List.nil_append, String.reduceToList, List.cons_append]
      rw [firstCodeFrom?_cons_of_not_isCode rfl, hnext, firstCodeFrom?_cons_of_not_isCode rfl,
        hclose, Nat.add_assoc]
      rfl
  | cons c others ih =>
      rw [List.cons_append] at hinner
      have hothers : ¬"*/".toList <:+: others ++ ['*'] := fun h =>
        hinner (List.infix_cons_iff.mpr (.inr h))
      rw [List.cons_append, firstCodeFrom?_cons_of_not_isCode rfl,
        next_blockComment (fun h hc => hstar h (by rw [hc]; rfl)),
        ih hothers (head?_ne_slash hinner), List.cons_append, Text.byteLength, Nat.add_assoc]

theorem firstCodeFrom?_openLine (offset : Nat) (rest : Text) :
    firstCodeFrom? (.code false) offset ("//".toList ++ rest) =
      firstCodeFrom? .lineComment (offset + Text.byteLength "//".toList) rest := by
  rfl

theorem firstCodeFrom?_openBlock (offset : Nat) (rest : Text) :
    firstCodeFrom? (.code false) offset ("/*".toList ++ rest) =
      firstCodeFrom? (.blockComment false) (offset + Text.byteLength "/*".toList) rest := by
  rfl

/-- Behind white space and closed comments, code is looked for as from the start. -/
theorem firstCodeFrom?_append (h : IsFillerText text) (offset : Nat) (rest : Text) :
    firstCodeFrom? (.code false) offset (text ++ rest) =
      firstCodeFrom? (.code false) (offset + text.byteLength) rest := by
  induction h generalizing offset with
  | nil => rfl
  | filler hc _ ih =>
      rw [List.cons_append, firstCodeFrom?_cons_of_isFiller hc, ih, Text.byteLength, Nat.add_assoc]
  | @lineComment inner others hinner _ ih =>
      have htext : "//".toList ++ inner ++ '\n' :: others ++ rest =
          "//".toList ++ (inner ++ '\n' :: (others ++ rest)) := by simp
      have hlength : Text.byteLength ("//".toList ++ inner ++ '\n' :: others) =
          Text.byteLength "//".toList + Text.byteLength (inner ++ ['\n']) + others.byteLength := by
        simp only [← Text.byteLength_append, List.append_assoc, List.singleton_append]
      rw [htext, firstCodeFrom?_openLine, firstCodeFrom?_lineComment hinner, ih, hlength]
      simp only [Nat.add_assoc]
  | @blockComment inner others hinner _ ih =>
      have htext : "/*".toList ++ inner ++ "*/".toList ++ others ++ rest =
          "/*".toList ++ (inner ++ ("*/".toList ++ (others ++ rest))) := by simp
      have hlength : Text.byteLength ("/*".toList ++ inner ++ "*/".toList ++ others) =
          Text.byteLength "/*".toList + Text.byteLength (inner ++ "*/".toList) +
            others.byteLength := by
        simp only [← Text.byteLength_append, List.append_assoc]
      rw [htext, firstCodeFrom?_openBlock, firstCodeFrom?_blockComment hinner (by simp), ih,
        hlength]
      simp only [Nat.add_assoc]

end Closed

section Open

/-- A text in a block comment without its end leads to a place in this comment. -/
theorem exists_firstCodeFrom?_of_open {afterStar : Bool} (hinner : ¬"*/".toList <:+: inner)
    (hstar : afterStar = true → inner.head? ≠ some '/') (offset : Nat) (rest : Text) :
    ∃ behindStar, firstCodeFrom? (.blockComment afterStar) offset (inner ++ rest) =
      firstCodeFrom? (.blockComment behindStar) (offset + inner.byteLength) rest := by
  induction inner generalizing afterStar offset with
  | nil => exact ⟨afterStar, rfl⟩
  | cons c others ih =>
      have hothers : ¬"*/".toList <:+: others := fun h => hinner (List.infix_cons_iff.mpr (.inr h))
      obtain ⟨behindStar, hrest⟩ := ih hothers (head?_ne_slash hinner) (offset + c.utf8Size)
      refine ⟨behindStar, ?_⟩
      rw [List.cons_append, firstCodeFrom?_cons_of_not_isCode rfl,
        next_blockComment (fun h hc => hstar h (by rw [hc]; rfl)), hrest, Text.byteLength,
        Nat.add_assoc]

/-- In a block comment no code is found at the first character behind blanks. -/
theorem firstCodeFrom?_blockComment_ne {afterStar : Bool} {blanks : Text} {c : Char}
    (hblanks : ∀ d ∈ blanks, isBlank d = true) (offset : Nat) (rest : Text) :
    firstCodeFrom? (.blockComment afterStar) offset (blanks ++ c :: rest) ≠
      some (offset + blanks.byteLength) := by
  induction blanks generalizing afterStar offset with
  | nil =>
      rw [List.nil_append, firstCodeFrom?_cons_of_not_isCode rfl]
      intro hfound
      have hle := le_of_firstCodeFrom? hfound
      have hpos := Char.utf8Size_pos c
      rw [Text.byteLength] at hle
      omega
  | cons d others ih =>
      obtain ⟨hd, hothers⟩ := List.forall_mem_cons.mp hblanks
      have hslash : d ≠ '/' := by
        rintro rfl
        exact absurd hd (by decide)
      rw [List.cons_append, firstCodeFrom?_cons_of_not_isCode rfl,
        next_blockComment (fun _ => hslash), Text.byteLength, ← Nat.add_assoc]
      exact ih hothers _

end Open

section Remainder

/-- The comment that two slashes open runs to the end of the text. -/
def IsOpenLine (text : Text) : Prop :=
  ∃ inner, text = "//".toList ++ inner ∧ '\n' ∉ inner

/-- The text begins with a character that is neither white space nor opens a comment. -/
def BeginsWithCode (text : Text) : Prop :=
  ∃ c rest, text = c :: rest ∧ isFiller c = false ∧ opensComment c rest.head? = false

theorem IsOpenLine.firstCodeFrom?_eq_none (h : IsOpenLine text) (offset : Nat) :
    firstCodeFrom? (.code false) offset text = none := by
  obtain ⟨inner, rfl, hinner⟩ := h
  rw [firstCodeFrom?_openLine]
  generalize offset + Text.byteLength "//".toList = start
  induction inner generalizing start with
  | nil => rfl
  | cons c others ih =>
      obtain ⟨hc, hothers⟩ := List.ne_and_not_mem_of_not_mem_cons hinner
      have hnext : Context.lineComment.next c others.head? = .lineComment := if_neg (Ne.symm hc)
      rw [firstCodeFrom?_cons_of_not_isCode rfl, hnext]
      exact ih hothers _

theorem IsOpenBlock.firstCodeFrom?_eq_none (h : IsOpenBlock text) (offset : Nat) :
    firstCodeFrom? (.code false) offset text = none := by
  obtain ⟨inner, rfl, hinner⟩ := h
  have hstar : false = true → inner.head? ≠ some '/' := fun h => nomatch h
  obtain ⟨behindStar, hend⟩ := exists_firstCodeFrom?_of_open hinner hstar
    (offset + Text.byteLength "/*".toList) []
  rw [List.append_nil] at hend
  rw [firstCodeFrom?_openBlock, hend]
  rfl

theorem BeginsWithCode.firstCodeFrom?_eq_some (h : BeginsWithCode text) (offset : Nat) :
    firstCodeFrom? (.code false) offset text = some offset := by
  obtain ⟨c, rest, rfl, hc, hopens⟩ := h
  simp [firstCodeFrom?, Context.isCode, hc, hopens]

/-- A text with the end of a block comment has a first such end. -/
theorem exists_first_close (h : "*/".toList <:+: text) :
    ∃ inner rest, text = inner ++ ("*/".toList ++ rest) ∧ ¬"*/".toList <:+: inner ++ ['*'] := by
  induction text with
  | nil => exact absurd h (by decide)
  | cons c others ih =>
      by_cases hhere : "*/".toList <+: c :: others
      · obtain ⟨rest, hrest⟩ := hhere
        exact ⟨[], rest, hrest.symm, by decide⟩
      · obtain ⟨inner, rest, rfl, hnone⟩ := ih ((List.infix_cons_iff.mp h).resolve_left hhere)
        refine ⟨c :: inner, rest, rfl, fun hinfix => ?_⟩
        rw [List.cons_append] at hinfix
        refine hnone ((List.infix_cons_iff.mp hinfix).resolve_left fun hprefix => hhere ?_)
        -- A star and a slash at the front stand there in the longer text too.
        have hlonger : c :: (inner ++ ['*']) <+: c :: (inner ++ ("*/".toList ++ rest)) :=
          ⟨'/' :: rest, by simp⟩
        exact hprefix.trans hlonger

theorem exists_comment_of_opensComment {c : Char} (h : opensComment c rest.head? = true) :
    (∃ others, c :: rest = "//".toList ++ others) ∨
      ∃ others, c :: rest = "/*".toList ++ others := by
  obtain ⟨hslash, hnext⟩ := Bool.and_eq_true_iff.mp h
  obtain rfl := eq_of_beq hslash
  rcases Bool.or_eq_true_iff.mp hnext with hline | hblock
  · obtain ⟨others, rfl⟩ := List.head?_eq_some_iff.mp (eq_of_beq hline)
    exact .inl ⟨others, rfl⟩
  · obtain ⟨others, rfl⟩ := List.head?_eq_some_iff.mp (eq_of_beq hblock)
    exact .inr ⟨others, rfl⟩

/-- A text begins with white space or a comment that ends, or else with a comment that does not end
or with code. -/
theorem exists_closed_front (hne : text ≠ []) :
    (∃ front behind, text = front ++ behind ∧ front ≠ [] ∧
      ∀ closed : Text, IsFillerText closed → IsFillerText (front ++ closed)) ∨
      IsOpenLine text ∨ IsOpenBlock text ∨ BeginsWithCode text := by
  obtain ⟨c, rest, rfl⟩ := List.exists_cons_of_ne_nil hne
  cases hc : isFiller c with
  | true => exact .inl ⟨[c], rest, rfl, List.cons_ne_nil _ _, fun _ => .filler hc⟩
  | false =>
      cases hopens : opensComment c rest.head? with
      | false => exact .inr (.inr (.inr ⟨c, rest, rfl, hc, hopens⟩))
      | true =>
          rcases exists_comment_of_opensComment hopens with ⟨others, htext⟩ | ⟨others, htext⟩
          · rw [htext]
            by_cases hnewline : '\n' ∈ others
            · obtain ⟨inner, behind, rfl, hinner⟩ := List.eq_append_cons_of_mem hnewline
              refine .inl ⟨"//".toList ++ inner ++ ['\n'], behind, by simp, by simp, ?_⟩
              intro closed hclosed
              simpa using IsFillerText.lineComment hinner hclosed
            · exact .inr (.inl ⟨others, rfl, hnewline⟩)
          · rw [htext]
            by_cases hclose : "*/".toList <:+: others
            · obtain ⟨inner, behind, rfl, hinner⟩ := exists_first_close hclose
              exact .inl ⟨"/*".toList ++ inner ++ "*/".toList, behind, by simp, by simp,
                fun _ => .blockComment hinner⟩
            · exact .inr (.inr (.inl ⟨others, rfl, hclose⟩))

/-- Behind the white space and the closed comments at its start, a text ends, or a comment without
its end follows, or code. -/
theorem exists_remainder (text : Text) :
    ∃ closed behind, text = closed ++ behind ∧ IsFillerText closed ∧
      (behind = [] ∨ IsOpenLine behind ∨ IsOpenBlock behind ∨ BeginsWithCode behind) := by
  -- A comment is gone through as a whole, so the induction is on the length of the text.
  induction hlength : text.length using Nat.strongRecOn generalizing text with
  | ind length ih =>
      by_cases hnil : text = []
      · exact ⟨[], [], hnil, .nil, .inl rfl⟩
      rcases exists_closed_front hnil with ⟨front, others, rfl, hfront, hclosed⟩ | hstop
      · have hshorter : others.length < length := by
          have hpositive := List.length_pos_iff.mpr hfront
          rw [← hlength, List.length_append]
          omega
        obtain ⟨closed, behind, rfl, hfiller, hbehind⟩ := ih others.length hshorter others rfl
        exact ⟨front ++ closed, behind, (List.append_assoc ..).symm, hclosed closed hfiller,
          hbehind⟩
      · exact ⟨[], text, rfl, .nil, .inr hstop⟩

/-- Where no code is found in a text that ends a line, there is none. -/
theorem holdsNoCode_of_firstCodeFrom? (h : firstCodeFrom? (.code false) offset text = none)
    (hends : text.EndsLine) : HoldsNoCode text := by
  obtain ⟨closed, behind, rfl, hclosed, hbehind⟩ := exists_remainder text
  rw [firstCodeFrom?_append hclosed] at h
  refine ⟨closed, behind, rfl, hclosed, ?_⟩
  rcases hbehind with hnil | ⟨inner, rfl, hinner⟩ | hblock | hcode
  · exact .inl hnil
  · have hnewline : '\n' ∈ inner := by
      simpa using List.mem_of_getLast? (hends.of_append.resolve_left (by simp))
    exact absurd hnewline hinner
  · exact .inr hblock
  · rw [hcode.firstCodeFrom?_eq_some] at h
    cases h

end Remainder

section Trim

theorem isFillerText_of_blanks {blanks : Text} (h : ∀ c ∈ blanks, isBlank c = true) :
    IsFillerText blanks := by
  induction blanks with
  | nil => exact .nil
  | cons c others ih =>
      obtain ⟨hc, hothers⟩ := List.forall_mem_cons.mp h
      exact .filler (Bool.or_eq_true_iff.mpr (.inl hc)) (ih hothers)

/-- White space at the end of a text is as good as a newline there. -/
theorem firstCodeFrom?_append_newline {blanks : Text} (hblanks : ∀ c ∈ blanks, isBlank c = true)
    (h : firstCodeFrom? context offset (text ++ blanks) = none) :
    firstCodeFrom? context offset (text ++ ['\n']) = none := by
  have hnewline : ∀ (context : Context) (offset : Nat),
      firstCodeFrom? context offset ['\n'] = none := by
    intro context offset
    have hfiller : isFiller '\n' = true := by decide
    simp [firstCodeFrom?, hfiller]
  induction text generalizing context offset with
  | nil => exact hnewline context offset
  | cons c rest ih =>
      obtain ⟨hhere, hrest⟩ := firstCodeFrom?_cons_eq_none_iff.mp h
      refine firstCodeFrom?_cons_eq_none_iff.mpr ?_
      cases rest with
      | nil =>
          -- The last character is followed by white space or nothing, and opens no comment.
          have hplain : opensComment c blanks.head? = opensComment c (some '\n') := by
            cases blanks with
            | nil => cases hslash : c == '/' <;> simp [opensComment, hslash]
            | cons d others =>
                have hd := hblanks d List.mem_cons_self
                have hslash : d ≠ '/' := by rintro rfl; exact absurd hd (by decide)
                have hstar : d ≠ '*' := by rintro rfl; exact absurd hd (by decide)
                simp [opensComment, hslash, hstar]
          exact ⟨hplain ▸ hhere, hnewline _ _⟩
      | cons d others => exact ⟨hhere, ih hrest⟩

theorem firstCodeFrom?_trim (h : firstCode? text = none) :
    firstCodeFrom? (.code false) 0 (text.trim ++ ['\n']) = none := by
  have hstart : firstCodeFrom? (.code false) 0 text.trimStart = none := by
    have hblanks : IsFillerText (text.takeWhile isBlank) :=
      isFillerText_of_blanks fun _ => List.mem_takeWhile_imp
    rw [firstCode?, ← List.takeWhile_append_dropWhile (p := isBlank) (l := text), Context.start,
      firstCodeFrom?_append hblanks, firstCodeFrom?_eq_map, Option.map_eq_none_iff] at h
    exact h
  have hend : text.trimStart = text.trim ++ text.trimStart.rtakeWhile isBlank :=
    (List.rdropWhile_append_rtakeWhile ..).symm
  rw [hend] at hstart
  exact firstCodeFrom?_append_newline (fun _ => List.mem_rtakeWhile_imp) hstart

end Trim

end MemberSplit.Lexical
