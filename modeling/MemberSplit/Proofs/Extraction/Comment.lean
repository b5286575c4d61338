import MemberSplit.Proofs.Extraction.Invariant
import MemberSplit.Proofs.Lexical.FirstCode
import MemberSplit.Proofs.Signature.Parts

/-!
# Comments in front of their definitions

The text of a definition begins with the comments that travel with it. Its signature is code there
as long as these comments end; behind a block comment that is never closed, it is part of the
comment.
-/

namespace MemberSplit

open Lexical (IsFillerText IsOpenBlock firstCode? firstCodeFrom? isFiller)

namespace Signature

/-- The text is blanks and a character that a signature begins with. -/
def IsHead (head : Text) : Prop :=
  ∃ blanks c rest, head = blanks ++ c :: rest ∧ (∀ d ∈ blanks, isLineBlank d = true) ∧
    (isWordChar c || c == ':') = true

namespace Pattern

variable {pattern : Pattern} {text body : Text} {parts : Parts}

theorem head?_of_withResult? (h : pattern.withResult? text = some (parts, body)) :
    ∃ c rest, text = c :: rest ∧ (isWordChar c || c == ':') = true := by
  unfold withResult? at h
  split at h
  next => cases h
  next c rest =>
    obtain ⟨hopens, -⟩ := Option.ite_none_right_eq_some.mp h
    refine ⟨c, rest, rfl, ?_⟩
    rcases Bool.or_eq_true_iff.mp hopens with hstart | hcolon
    · exact Bool.or_eq_true_iff.mpr (.inl (isWordChar_of_isIdentStart hstart))
    · exact Bool.or_eq_true_iff.mpr (.inr hcolon)

theorem head?_of_atOwner? {blanks : Text} (hblanks : ∀ c ∈ blanks, isLineBlank c = true)
    (h : pattern.atOwner? blanks.getLast? text = some (parts, body)) :
    ∃ c rest, text = c :: rest ∧ (isWordChar c || c == ':') = true := by
  unfold atOwner? at h
  split at h
  next => cases h
  next hrest =>
    -- No word ends behind blanks, so that one begins at the owner.
    obtain ⟨hbound, -⟩ := Option.ite_none_right_eq_some.mp hrest
    rw [Text.atBoundary, inWord_getLast?_of_blanks hblanks] at hbound
    cases text with
    | nil => cases hbound
    | cons c others =>
        have hword : isWordChar c = true := by simpa [Text.inWord] using hbound
        exact ⟨c, others, rfl, Bool.or_eq_true_iff.mpr (.inl hword)⟩

theorem isHead_of_match? (h : pattern.match? text = some (parts, body)) :
    IsHead (parts.text pattern) := by
  simp only [match?, Option.map_eq_some_iff] at h
  obtain ⟨⟨parts', body'⟩, hfound, heq⟩ := h
  obtain ⟨rfl, rfl⟩ := Prod.mk.inj heq
  have hblanks : ∀ d ∈ text.takeWhile isLineBlank, isLineBlank d = true := fun _ =>
    List.mem_takeWhile_imp
  obtain ⟨htext, c, rest, hrest, hc⟩ :
      parts'.text pattern ++ '{' :: body' = text.dropWhile isLineBlank ∧
        ∃ c rest, text.dropWhile isLineBlank = c :: rest ∧
          (isWordChar c || c == ':') = true := by
    split at hfound
    next hresult =>
      obtain rfl := Option.some.inj hfound
      exact ⟨withResult?_append hresult, head?_of_withResult? hresult⟩
    next => exact ⟨atOwner?_append hfound, head?_of_atOwner? hblanks hfound⟩
  rw [hrest] at htext
  have hhead : (extendResult (text.takeWhile isLineBlank) (parts', body')).1.text pattern =
      text.takeWhile isLineBlank ++ parts'.text pattern := by
    simp [extendResult, Parts.text]
  cases hparts : parts'.text pattern with
  | nil => simp [Parts.text] at hparts
  | cons d others =>
      rw [hparts, List.cons_append] at htext
      obtain ⟨rfl, -⟩ := List.cons.inj htext
      exact ⟨_, d, others, hhead.trans (by rw [hparts]), hblanks, hc⟩

theorem isHead_of_mem_signaturesFrom {offset : Nat} {atLineStart : Bool} {signature : Signature}
    (hmem : signature ∈ pattern.signaturesFrom offset atLineStart text) :
    IsHead signature.head := by
  obtain ⟨hhead, start, hmatch⟩ := exists_match?_of_mem_signaturesFrom hmem
  rw [hhead]
  exact isHead_of_match? hmatch

end Pattern

theorem IsHead.exists_append {head : Text} (h : IsHead head) :
    ∃ c rest, head = head.takeWhile isBlank ++ c :: rest ∧ isFiller c = false ∧ c ≠ '/' := by
  obtain ⟨blanks, c, rest, rfl, hblanks, hc⟩ := h
  have hfiller : isFiller c = false := by
    rw [Bool.eq_false_iff]
    intro hfiller
    rcases Bool.or_eq_true_iff.mp hc with hword | hcolon
    · rw [Lexical.isWordChar_of_isFiller hfiller] at hword
      cases hword
    · rw [eq_of_beq hcolon] at hfiller
      exact absurd hfiller (by decide)
  have hblank : isBlank c = false := (Bool.or_eq_false_iff.mp hfiller).1
  have hspaces : ∀ d ∈ blanks, isBlank d = true := by
    intro d hd
    rcases eq_of_isLineBlank (hblanks d hd) with rfl | rfl <;> decide
  refine ⟨c, rest, ?_, hfiller, ?_⟩
  · rw [Text.takeWhile_run hspaces (by simpa using hblank)]
  · rintro rfl
    exact absurd hc (by decide +kernel)

end Signature

namespace Lexical

variable {comment behind : Text}

/-- Behind closed comments and blanks, the first code is the first other character. -/
theorem firstCode?_append_of_isFillerText {blanks : Text} {c : Char}
    (hcomment : IsFillerText comment) (hblanks : ∀ d ∈ blanks, isBlank d = true)
    (hc : isFiller c = false ∧ c ≠ '/') :
    firstCode? (comment ++ (blanks ++ c :: behind)) =
      some (comment.byteLength + blanks.byteLength) := by
  have hopens : opensComment c behind.head? = false := by simp [opensComment, hc.2]
  rw [firstCode?, Context.start, firstCodeFrom?_append hcomment,
    firstCodeFrom?_append (isFillerText_of_blanks hblanks), firstCodeFrom?, hc.1, hopens,
    Nat.zero_add]
  rfl

/-- Behind a comment that is not closed, that character is not the first code. -/
theorem firstCode?_append_ne {closed blanks : Text} {c : Char} (hclosed : IsFillerText closed)
    (hopen : IsOpenBlock behind) (hblanks : ∀ d ∈ blanks, isBlank d = true) (rest : Text) :
    firstCode? (closed ++ behind ++ (blanks ++ c :: rest)) ≠
      some ((closed ++ behind).byteLength + blanks.byteLength) := by
  obtain ⟨inner, rfl, hinner⟩ := hopen
  have hstar : false = true → inner.head? ≠ some '/' := by simp
  obtain ⟨afterStar, hbehind⟩ := exists_firstCodeFrom?_of_open hinner hstar
    (closed.byteLength + Text.byteLength "/*".toList) (blanks ++ c :: rest)
  rw [firstCode?, Context.start, List.append_assoc, List.append_assoc,
    firstCodeFrom?_append hclosed, firstCodeFrom?_openBlock, Nat.zero_add, hbehind,
    Text.byteLength_append, Text.byteLength_append, ← Nat.add_assoc closed.byteLength]
  exact firstCodeFrom?_blockComment_ne hblanks _ rest

end Lexical

namespace Extractor

variable {extractor : Extractor} {source : Text}

theorem travellingComment_eq (mode : ScanMode) (gap : Text) :
    travellingComment mode gap = [] ∨
      firstCode? gap = none ∧ travellingComment mode gap = gap.trim ++ ['\n'] := by
  unfold travellingComment
  split
  next => exact .inl rfl
  next hgap =>
    dsimp only
    split
    next => exact .inl rfl
    next => exact .inr ⟨by simpa using hgap, rfl⟩

/-- What a definition takes along is what can travel of some gap. -/
theorem exists_travellingComment {previousStop : Option Nat} {signatures : List Signature}
    {definition : Definition}
    (hmem : definition ∈ (extractor.candidatesFrom source previousStop signatures).filterMap
      Candidate.definition?) :
    ∃ gap, definition.comment = travellingComment extractor.mode gap := by
  induction signatures generalizing previousStop with
  | nil => simp [candidatesFrom] at hmem
  | cons signature others ih =>
      simp only [candidatesFrom] at hmem
      split at hmem
      next => exact ih hmem
      next =>
        split at hmem
        next => exact ih hmem
        next =>
          rcases List.mem_cons.mp hmem with rfl | hothers
          · cases previousStop with
            | none => exact ⟨[], rfl⟩
            | some stop => exact ⟨_, rfl⟩
          · exact ih hothers

theorem comment_of_candidatesFrom {previousStop : Option Nat} {signatures : List Signature}
    {definition : Definition}
    (hmem : definition ∈ (extractor.candidatesFrom source previousStop signatures).filterMap
      Candidate.definition?) :
    definition.comment = [] ∨
      ∃ gap, firstCode? gap = none ∧ definition.comment = gap.trim ++ ['\n'] := by
  obtain ⟨gap, hgap⟩ := exists_travellingComment hmem
  rw [hgap]
  exact (travellingComment_eq _ gap).imp id fun htrim => ⟨gap, htrim⟩

/-- The signature is the first code of its definition's text, behind the comments and the blanks
that the signature begins with, if and only if the comments are closed. If they are not, then the
last of them is a block comment without an end. -/
theorem firstCode_text_iff_of_comment {definition : Definition}
    (hmem : definition ∈ (extractor.extract source).definitions)
    (hcomment : definition.comment ≠ []) :
    (firstCode? definition.text = some (definition.comment.byteLength +
        Text.byteLength (definition.head.takeWhile isBlank)) ↔
      IsFillerText definition.comment) ∧
    (IsFillerText definition.comment ∨ ∃ closed behind, definition.comment = closed ++ behind ∧
      IsFillerText closed ∧ IsOpenBlock behind) := by
  obtain ⟨gap, hgap, htrim⟩ := (comment_of_candidatesFrom hmem).resolve_left hcomment
  obtain ⟨signature, hsignature, hread⟩ := exists_isReadFrom hmem
  obtain ⟨c, rest, hhead, hc⟩ :=
    (Signature.Pattern.isHead_of_mem_signaturesFrom hsignature).exists_append
  rw [← hread.head] at hhead
  have hblanks : ∀ d ∈ definition.head.takeWhile isBlank, isBlank d = true := fun _ =>
    List.mem_takeWhile_imp
  have htext : definition.text = definition.comment ++
      (definition.head.takeWhile isBlank ++ c :: (rest ++ definition.body)) := by
    rw [Definition.text, List.append_assoc]
    congr 1
    conv_lhs => rw [hhead]
    simp
  have hends : Text.EndsLine definition.comment := by
    rw [htrim]
    exact .inr (by simp)
  -- A comment travels only if its gap holds no code, but it need not end there.
  obtain ⟨closed, behind, hsplit, hclosed, hbehind⟩ :=
    Lexical.holdsNoCode_of_firstCodeFrom? (htrim ▸ Lexical.firstCodeFrom?_trim hgap) hends
  rcases hbehind with rfl | hopen
  · rw [List.append_nil] at hsplit
    have hfiller : IsFillerText definition.comment := hsplit ▸ hclosed
    refine ⟨⟨fun _ => hfiller, fun _ => ?_⟩, .inl hfiller⟩
    rw [htext, Lexical.firstCode?_append_of_isFillerText hfiller hblanks hc]
  · refine ⟨⟨fun hfirst => ?_, fun hfiller => ?_⟩, .inr ⟨closed, behind, hsplit, hclosed, hopen⟩⟩
    · rw [htext, hsplit] at hfirst
      exact absurd hfirst (Lexical.firstCode?_append_ne hclosed hopen hblanks _)
    · rw [htext, Lexical.firstCode?_append_of_isFillerText hfiller hblanks hc]

/-- A line comment ends in front of its function; a block comment that is opened there takes the
function with it. -/
theorem firstCode_text_iff_of_comment_open_block :
    let extractor : Extractor := ⟨⟨"Foo", .wrapped⟩, .lexical⟩
    let source : Text :=
      "void Foo::a() {}\n// then\nvoid Foo::b() {}\n/*\nvoid Foo::c() {}\n*/\n"
    ∃ second ∈ (extractor.extract source).definitions,
      ∃ third ∈ (extractor.extract source).definitions,
        IsFillerText second.comment ∧ firstCode? second.text = some 8 ∧
        firstCode? third.text ≠ some 3 ∧ ∃ closed behind, third.comment = closed ++ behind ∧
          IsFillerText closed ∧ IsOpenBlock behind := by
  intro extractor source
  have hread : (extractor.extract source).definitions.map (fun definition =>
      (definition.comment.byteLength, Text.byteLength (definition.head.takeWhile isBlank),
        firstCode? definition.text)) = [(0, 0, some 0), (8, 0, some 8), (3, 0, none)] := by
    decide +kernel
  obtain ⟨first, others, hlist, -, hothers⟩ := List.map_eq_cons_iff.mp hread
  obtain ⟨second, later, hsecond, hread', hlater⟩ := List.map_eq_cons_iff.mp hothers
  obtain ⟨third, last, hthird, hread'', -⟩ := List.map_eq_cons_iff.mp hlater
  simp only [Prod.mk.injEq] at hread' hread''
  obtain ⟨hlength, hblanks, hfirst⟩ := hread'
  obtain ⟨hlength', hblanks', hfirst'⟩ := hread''
  have hmem : second ∈ (extractor.extract source).definitions := by simp [hlist, hsecond]
  have hmem' : third ∈ (extractor.extract source).definitions := by simp [hlist, hsecond, hthird]
  have hne : ∀ comment : Text, comment.byteLength ≠ 0 → comment ≠ [] := fun _ hcomment hnil =>
    hcomment (Text.byteLength_eq_zero_iff.mpr hnil)
  obtain ⟨hiff, -⟩ := firstCode_text_iff_of_comment hmem (hne _ (by simp [hlength]))
  obtain ⟨hiff', hopen⟩ := firstCode_text_iff_of_comment hmem' (hne _ (by simp [hlength']))
  rw [hlength, hblanks] at hiff
  rw [hlength', hblanks', hfirst'] at hiff'
  refine ⟨second, hmem, third, hmem', hiff.mp hfirst, hfirst, by simp [hfirst'],
    hopen.resolve_left fun hfiller => ?_⟩
  cases hiff'.mpr hfiller

end Extractor

end MemberSplit
