import MemberSplit.Proofs.Definition.NameCut
import MemberSplit.Proofs.Text.Skeleton
import MemberSplit.Proofs.Text.Words

/-!
# Tokens of a declaration

A declaration is made of words, and of reference and pointer marks, which need no white space
around them. These tokens stay the same when white space is collapsed, and when a type is written
without spaces in front of its marks.
-/

namespace MemberSplit

namespace ParameterType

variable {text front rest run : Text} {c : Char}

/-- A reference or pointer mark. -/
def isReference (c : Char) : Bool :=
  c == '&' || c == '*'

/-- The text with spaces around its marks. -/
def spaced (text : Text) : Text :=
  text.flatMap fun c => if isReference c then [' ', c, ' '] else [c]

/-- The words and the marks of a declaration. -/
def tokens (text : Text) : List Text :=
  Text.words (spaced text)

theorem isBlank_eq_false_of_isReference (h : isReference c = true) : isBlank c = false := by
  rcases Bool.or_eq_true_iff.mp h with hmark | hmark <;> rw [eq_of_beq hmark] <;> decide

theorem isReference_eq_false_of_isBlank (h : isBlank c = true) : isReference c = false := by
  rw [Bool.eq_false_iff]
  intro hmark
  rw [isBlank_eq_false_of_isReference hmark] at h
  cases h

theorem spaced_append (front rest : Text) : spaced (front ++ rest) = spaced front ++ spaced rest :=
  List.flatMap_append

theorem spaced_eq_self (h : ∀ c ∈ text, isReference c = false) : spaced text = text := by
  induction text with
  | nil => rfl
  | cons c rest ih =>
      obtain ⟨hc, hrest⟩ := List.forall_mem_cons.mp h
      have hcons : spaced (c :: rest) = spaced [c] ++ spaced rest := spaced_append [c] rest
      rw [hcons, ih hrest]
      simp [spaced, hc]

@[simp] theorem tokens_nil : tokens [] = [] := rfl

theorem tokens_append_blank (hc : isBlank c = true) (front rest : Text) :
    tokens (front ++ c :: rest) = tokens front ++ tokens rest := by
  have hcons : spaced (c :: rest) = c :: spaced rest := by
    simp [spaced, isReference_eq_false_of_isBlank hc]
  rw [tokens, spaced_append, hcons, Text.words_append_cons hc]
  rfl

theorem tokens_append_mark (hc : isReference c = true) (front rest : Text) :
    tokens (front ++ c :: rest) = tokens front ++ [c] :: tokens rest := by
  have hcons : spaced (c :: rest) = ' ' :: ([c] ++ ' ' :: spaced rest) := by
    simp [spaced, hc]
  have hmark : Text.words [c] = [[c]] := by
    rw [Text.words_of_visible (by simpa using isBlank_eq_false_of_isReference hc),
      if_neg (List.cons_ne_nil c [])]
  rw [tokens, spaced_append, hcons, Text.words_append_cons rfl, Text.words_append_cons rfl, hmark]
  rfl

/-- A character of a word. -/
def isPlain (c : Char) : Bool :=
  !isBlank c && !isReference c

theorem isPlain_eq_false_iff : isPlain c = false ↔ isBlank c = true ∨ isReference c = true := by
  cases hblank : isBlank c <;> cases hmark : isReference c <;> simp [isPlain, hblank, hmark]

theorem tokens_of_isPlain (hrun : ∀ c ∈ run, isPlain c = true) :
    tokens run = if run = [] then [] else [run] := by
  have hkinds : ∀ c ∈ run, isBlank c = false ∧ isReference c = false := fun c hc => by
    simpa [isPlain] using hrun c hc
  rw [tokens, spaced_eq_self fun c hc => (hkinds c hc).2,
    Text.words_of_visible fun c hc => (hkinds c hc).1]

/-- A word is a token if something else stands behind it. -/
theorem tokens_run_append (hrun : ∀ c ∈ run, isPlain c = true) (hne : run ≠ [])
    (hrest : rest.head?.any isPlain = false) : tokens (run ++ rest) = run :: tokens rest := by
  have hword : tokens run = [run] := by rw [tokens_of_isPlain hrun, if_neg hne]
  cases rest with
  | nil => rw [List.append_nil, hword, tokens_nil]
  | cons c others =>
      rcases isPlain_eq_false_iff.mp hrest with hblank | hmark
      · have hothers : tokens (c :: others) = tokens others := tokens_append_blank hblank [] others
        rw [tokens_append_blank hblank, hword, hothers, List.singleton_append]
      · have hothers : tokens (c :: others) = [c] :: tokens others :=
          tokens_append_mark hmark [] others
        rw [tokens_append_mark hmark, hword, hothers, List.singleton_append]

/-- A word is a token if something else stands in front of it. -/
theorem tokens_append_run (hrun : ∀ c ∈ run, isPlain c = true) (hne : run ≠ [])
    (hfront : front.getLast?.any isPlain = false) :
    tokens (front ++ run) = tokens front ++ [run] := by
  have hword : tokens run = [run] := by rw [tokens_of_isPlain hrun, if_neg hne]
  rcases List.eq_nil_or_concat front with rfl | ⟨others, c, rfl⟩
  · exact hword
  · rw [List.concat_eq_append] at hfront ⊢
    have hc : isPlain c = false := by simpa using hfront
    rw [List.append_assoc, List.singleton_append]
    rcases isPlain_eq_false_iff.mp hc with hblank | hmark
    · rw [tokens_append_blank hblank, tokens_append_blank hblank, hword, tokens_nil,
        List.append_nil]
    · rw [tokens_append_mark hmark, tokens_append_mark hmark, hword, tokens_nil]
      simp

theorem tokens_blanks_append {blanks : Text} (hblanks : ∀ c ∈ blanks, isBlank c = true)
    (rest : Text) : tokens (blanks ++ rest) = tokens rest := by
  induction blanks with
  | nil => rfl
  | cons c others ih =>
      obtain ⟨hc, hothers⟩ := List.forall_mem_cons.mp hblanks
      exact (tokens_append_blank hc [] _).trans (ih hothers)

theorem tokens_append_blanks {blanks : Text} (hblanks : ∀ c ∈ blanks, isBlank c = true)
    (front : Text) : tokens (front ++ blanks) = tokens front := by
  cases blanks with
  | nil => rw [List.append_nil]
  | cons c others =>
      obtain ⟨hc, hothers⟩ := List.forall_mem_cons.mp hblanks
      have hnone : tokens others = [] := by
        simpa using tokens_blanks_append hothers []
      rw [tokens_append_blank hc, hnone, List.append_nil]

theorem tokens_trimEnd (text : Text) : tokens text.trimEnd = tokens text := by
  have hsplit : text.trimEnd ++ text.rtakeWhile isBlank = text :=
    List.rdropWhile_append_rtakeWhile
  conv_rhs => rw [← hsplit]
  exact (tokens_append_blanks (fun _ => List.mem_rtakeWhile_imp) _).symm

theorem tokens_trim (text : Text) : tokens text.trim = tokens text := by
  have hsplit : text.takeWhile isBlank ++ text.trimStart = text :=
    List.takeWhile_append_dropWhile
  conv_rhs => rw [← hsplit]
  rw [Text.trim, tokens_trimEnd, tokens_blanks_append fun _ => List.mem_takeWhile_imp]

/-- The tokens of a text are those of its words between white space. -/
theorem flatMap_tokens_words (text : Text) : text.words.flatMap tokens = tokens text := by
  induction text using Text.induction_on_breaks isBlank with
  | run run hrun =>
      rw [Text.words_of_visible hrun]
      split
      next hnil => rw [hnil]; rfl
      next => simp
  | step run c rest hrun hc ih =>
      rw [Text.words_append_cons hc, tokens_append_blank hc, List.flatMap_append, ih,
        Text.words_of_visible hrun]
      split
      next hnil => rw [hnil]; rfl
      next => simp

theorem tokens_joinWith (parts : List Text) :
    tokens (Text.joinWith [' '] parts) = parts.flatMap tokens := by
  induction parts with
  | nil => rfl
  | cons part rest ih =>
      cases rest with
      | nil => simp [Text.joinWith]
      | cons next others =>
          have hjoin : Text.joinWith [' '] (part :: next :: others) =
              part ++ ' ' :: Text.joinWith [' '] (next :: others) := by
            rw [Text.joinWith, List.intercalate_cons_cons, List.append_assoc]
            rfl
          rw [hjoin, tokens_append_blank rfl, ih]
          rfl

theorem tokens_collapseBlanks (text : Text) : tokens text.collapseBlanks = tokens text := by
  rw [Text.collapseBlanks, tokens_joinWith, flatMap_tokens_words]

/-- Dropping the space in front of a mark keeps the tokens. What has been gone through is part of
the front, because a token can lie on both sides of the place that has been reached. -/
theorem tokens_append_replaceFrom (hc : isReference c = true) (front text : Text) :
    tokens (front ++ Text.replaceFrom [' ', c] [c] 0 text) = tokens (front ++ text) := by
  induction hlength : text.length using Nat.strongRecOn generalizing front text with
  | ind length ih =>
      cases text with
      | nil => rfl
      | cons d rest =>
          unfold Text.replaceFrom
          split
          next hprefix =>
            obtain ⟨behind, hbehind⟩ := List.isPrefixOf_iff_prefix.mp hprefix
            obtain ⟨rfl, rfl⟩ := List.cons.inj hbehind
            have hshort : behind.length < length := by
              rw [← hlength, List.length_cons]
              exact Nat.lt_succ_of_lt (Nat.lt_succ_self _)
            have hrest := ih behind.length hshort (front ++ [c]) behind rfl
            have hbehind : tokens (c :: behind) = [c] :: tokens behind :=
              tokens_append_mark hc [] behind
            calc tokens (front ++ ([c] ++ Text.replaceFrom [' ', c] [c] 1 (c :: behind)))
                _ = tokens (front ++ [c] ++ Text.replaceFrom [' ', c] [c] 0 behind) := by
                  rw [← List.append_assoc]
                  rfl
                _ = tokens front ++ [c] :: tokens behind := by
                  rw [hrest, List.append_assoc, List.singleton_append, tokens_append_mark hc]
                _ = tokens (front ++ ' ' :: c :: behind) := by
                  rw [tokens_append_blank rfl, hbehind]
          next =>
            have hrest := ih rest.length (by simp [← hlength]) (front ++ [d]) rest rfl
            simpa using hrest

theorem tokens_tight (type : Text) : tokens (tight type) = tokens type := by
  have hreference := tokens_append_replaceFrom (c := '&') (by decide) [] type
  exact (tokens_append_replaceFrom (c := '*') (by decide) [] _).trans hreference

/-- Every visible character of a text is part of a token. -/
theorem exists_mem_tokens (hc : c ∈ text) (hvisible : isBlank c = false) :
    ∃ token ∈ tokens text, c ∈ token := by
  have hspaced : c ∈ spaced text := by
    refine List.mem_flatMap.mpr ⟨c, hc, ?_⟩
    split <;> simp
  have hfilter : (tokens text).flatMap (List.filter fun c => !isBlank c) =
      (spaced text).filter fun c => !isBlank c := Text.flatMap_filter_words (by simp) (spaced text)
  have hmem : c ∈ (spaced text).filter fun c => !isBlank c :=
    List.mem_filter.mpr ⟨hspaced, by simp [hvisible]⟩
  rw [← hfilter] at hmem
  obtain ⟨token, htoken, hfound⟩ := List.mem_flatMap.mp hmem
  exact ⟨token, htoken, (List.mem_filter.mp hfound).1⟩

/-- The first token stands behind white space, and the other ones are those of what follows it. -/
theorem exists_first_token {token : Text} {others : List Text} (h : tokens text = token :: others) :
    ∃ blanks rest, text = blanks ++ (token ++ rest) ∧ (∀ c ∈ blanks, isBlank c = true) ∧
      tokens rest = others ∧
      ((∀ c ∈ token, isReference c = false) → rest.head?.any isPlain = false) := by
  have hblanks : ∀ c ∈ text.takeWhile isBlank, isBlank c = true := fun _ => List.mem_takeWhile_imp
  have hsplit : text.takeWhile isBlank ++ text.dropWhile isBlank = text :=
    List.takeWhile_append_dropWhile
  rw [← hsplit, tokens_blanks_append hblanks] at h
  cases hdrop : text.dropWhile isBlank with
  | nil => rw [hdrop] at h; cases h
  | cons c rest =>
      have hc : isBlank c = false := by
        have hnot := Text.any_head?_dropWhile isBlank text
        simpa [hdrop] using hnot
      rw [hdrop] at h hsplit
      cases hmark : isReference c with
      | true =>
          have hrest : tokens (c :: rest) = [c] :: tokens rest := tokens_append_mark hmark [] rest
          rw [hrest] at h
          obtain ⟨rfl, rfl⟩ := List.cons.inj h
          refine ⟨_, rest, hsplit.symm, hblanks, rfl, fun hplain => ?_⟩
          rw [hplain c List.mem_cons_self] at hmark
          cases hmark
      | false =>
          have hplain : isPlain c = true := by simp [isPlain, hc, hmark]
          have hword : (c :: rest).takeWhile isPlain ++ (c :: rest).dropWhile isPlain = c :: rest :=
            List.takeWhile_append_dropWhile
          have hne : (c :: rest).takeWhile isPlain ≠ [] := by
            rw [List.takeWhile_cons_of_pos hplain]
            exact List.cons_ne_nil _ _
          have hbehind := Text.any_head?_dropWhile isPlain (c :: rest)
          rw [← hword, tokens_run_append (fun _ => List.mem_takeWhile_imp) hne hbehind] at h
          obtain ⟨rfl, rfl⟩ := List.cons.inj h
          exact ⟨_, _, by rw [hword, hsplit], hblanks, rfl, fun _ => hbehind⟩

/-- The last token of a text that does not end in white space stands behind the other ones. -/
theorem exists_last_token {token : Text} {others : List Text}
    (hends : text.getLast?.any isBlank = false) (h : tokens text = others ++ [token]) :
    ∃ front, text = front ++ token ∧ tokens front = others ∧
      ((∀ c ∈ token, isReference c = false) → front.getLast?.any isPlain = false) := by
  rcases List.eq_nil_or_concat text with rfl | ⟨front, c, rfl⟩
  · simp at h
  · rw [List.concat_eq_append] at h hends ⊢
    have hc : isBlank c = false := by simpa using hends
    cases hmark : isReference c with
    | true =>
        rw [tokens_append_mark hmark, tokens_nil] at h
        obtain ⟨rfl, htoken⟩ := List.append_inj' h rfl
        obtain rfl := List.singleton_inj.mp htoken
        refine ⟨front, rfl, rfl, fun hplain => ?_⟩
        rw [hplain c List.mem_cons_self] at hmark
        cases hmark
    | false =>
        have hplain : isPlain c = true := by simp [isPlain, hc, hmark]
        have hword : (front ++ [c]).rdropWhile isPlain ++ (front ++ [c]).rtakeWhile isPlain =
            front ++ [c] := List.rdropWhile_append_rtakeWhile
        have hne : (front ++ [c]).rtakeWhile isPlain ≠ [] := by
          rw [List.rtakeWhile_concat_pos isPlain front c hplain]
          simp
        have hbefore := Text.any_getLast?_rdropWhile isPlain (front ++ [c])
        rw [← hword, tokens_append_run (fun _ => List.mem_rtakeWhile_imp) hne hbefore] at h
        obtain ⟨rfl, htoken⟩ := List.append_inj' h rfl
        obtain rfl := List.singleton_inj.mp htoken
        exact ⟨_, hword.symm, rfl, fun _ => hbefore⟩

end ParameterType

end MemberSplit
