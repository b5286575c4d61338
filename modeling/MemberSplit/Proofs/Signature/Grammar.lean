import MemberSplit.Proofs.Signature.Character
import MemberSplit.Signature.Basic

/-!
# Names, parameters and qualifiers that are read back

The pieces of a signature as they are usually written: a plain name, parameters in which parentheses
nest once, and qualifiers that are apart. Each reader, put in front of such a piece, reads the piece
and stops behind it.
-/

namespace MemberSplit

namespace Name

/-- Whether the text is a letter or underscore, and then word characters. -/
def isIdentifier : Text → Bool
  | [] => false
  | c :: rest => isIdentStart c && rest.all isWordChar

/-- Whether the text is an identifier, with or without a tilde. -/
def isPlain : Text → Bool
  | '~' :: rest => isIdentifier rest
  | text => isIdentifier text

variable {name rest : Text}

theorem isWordChar_of_isIdentifier (h : isIdentifier name = true) :
    ∀ c ∈ name, isWordChar c = true := by
  cases name with
  | nil => cases h
  | cons c others =>
      obtain ⟨hstart, hothers⟩ := Bool.and_eq_true_iff.mp h
      intro d hmem
      rcases List.mem_cons.mp hmem with rfl | hlater
      · exact isWordChar_of_isIdentStart hstart
      · exact List.all_eq_true.mp hothers d hlater

theorem identifier?_append_of_isIdentifier (h : isIdentifier name = true)
    (hrest : rest.head?.any isWordChar = false) :
    identifier? (name ++ rest) = some (name, rest) := by
  cases name with
  | nil => cases h
  | cons c others =>
      obtain ⟨hstart, hothers⟩ := Bool.and_eq_true_iff.mp h
      rw [List.cons_append, identifier?, if_pos hstart,
        Text.takeWhile_run (List.all_eq_true.mp hothers) hrest,
        Text.dropWhile_run (List.all_eq_true.mp hothers) hrest]

theorem plain?_append_of_isPlain (h : isPlain name = true)
    (hrest : rest.head?.any isWordChar = false) : plain? (name ++ rest) = some (name, rest) := by
  unfold isPlain at h
  split at h
  next others =>
    rw [List.cons_append, plain?, identifier?_append_of_isIdentifier h hrest]
    rfl
  next htilde =>
    unfold plain?
    split
    next others heq =>
      cases name with
      | nil => cases h
      | cons c tail =>
          obtain ⟨rfl, -⟩ := List.cons.inj heq
          exact absurd rfl (htilde tail)
    next => exact identifier?_append_of_isIdentifier h hrest

theorem isWordChar_or_of_isPlain (h : isPlain name = true) :
    ∀ c ∈ name, isWordChar c = true ∨ c = '~' := by
  unfold isPlain at h
  split at h
  next others =>
    intro c hmem
    rcases List.mem_cons.mp hmem with rfl | hlater
    · exact .inr rfl
    · exact .inl (isWordChar_of_isIdentifier h c hlater)
  next => exact fun c hmem => .inl (isWordChar_of_isIdentifier h c hmem)

/-- A plain name holds no white space. -/
theorem withoutBlanks_of_isPlain (h : isPlain name = true) : name.withoutBlanks = name := by
  apply List.filter_eq_self.mpr
  intro c hmem
  cases hblank : isBlank c with
  | false => rfl
  | true =>
      rcases isWordChar_or_of_isPlain h c hmem with hword | rfl
      · rw [isWordChar_of_isBlank hblank] at hword
        cases hword
      · exact absurd hblank (by decide)

end Name

namespace Signature

variable {layout : Layout} {run inner gap rest : Text}

/-- A character of a parameter list, other than a parenthesis. -/
def isParamChar (layout : Layout) (c : Char) : Bool :=
  c != '(' && c != ')' && !layout.isBreak c

/-- Pairs of parentheses that hold no others, with other characters around them. -/
inductive NestsOnce (layout : Layout) : Text → Prop
  | run {run : Text} : run.all (isParamChar layout) = true → NestsOnce layout run
  | pair {run inner rest : Text} : run.all (isParamChar layout) = true →
      inner.all (isParamChar layout) = true → NestsOnce layout rest →
      NestsOnce layout (run ++ '(' :: inner ++ ')' :: rest)

theorem params?_run (hrun : run.all (isParamChar layout) = true) (nested : Bool) (rest : Text) :
    params? layout nested (run ++ rest) = (params? layout nested rest).map (Text.extend run) := by
  induction run with
  | nil =>
      have hid : Text.extend [] = id := rfl
      rw [hid, Option.map_id]
      rfl
  | cons c others ih =>
      obtain ⟨hc, hothers⟩ := Bool.and_eq_true_iff.mp hrun
      obtain ⟨⟨hopen, hclose⟩, hbreak⟩ : (c ≠ '(' ∧ c ≠ ')') ∧ layout.isBreak c = false := by
        simpa [isParamChar] using hc
      simp only [List.cons_append, params?, if_neg hclose, if_neg hopen, hbreak,
        if_neg Bool.false_ne_true, ih hothers, Option.map_map]
      rfl

theorem params?_of_nestsOnce {params : Text} (h : NestsOnce layout params) (rest : Text) :
    params? layout false (params ++ ')' :: rest) = some (params, rest) := by
  induction h with
  | run hrun =>
      rw [params?_run hrun]
      simp [params?]
  | @pair run inner tail hrun hinner _ ih =>
      have hclose : params? layout true (')' :: (tail ++ ')' :: rest)) =
          some (')' :: tail, rest) := by
        simp [params?, ih]
      have hopen : params? layout false ('(' :: (inner ++ ')' :: (tail ++ ')' :: rest))) =
          some ('(' :: inner ++ ')' :: tail, rest) := by
        have hinside := params?_run hinner true (')' :: (tail ++ ')' :: rest))
        rw [hclose] at hinside
        simp [params?, hinside]
      simp only [List.append_assoc, List.cons_append]
      rw [params?_run hrun, hopen]
      simp

/-- The qualifiers are known words, each but the first behind a gap. -/
structure AreApart (layout : Layout) (list : List Qualifier) : Prop where
  words : ∀ qualifier ∈ list, qualifier.word ∈ qualifierWords
  gaps : ∀ qualifier ∈ list, qualifier.gap.all layout.isGap = true
  apart : ∀ qualifier ∈ list.tail, qualifier.gap ≠ []

/-- Whether the text goes on with neither a word nor an ampersand. -/
def endsQualifier (text : Text) : Bool :=
  !text.head?.any fun c => isWordChar c || c == '&'

theorem endsQualifier_cons {c : Char} (hc : isWordChar c = false ∧ c ≠ '&') (rest : Text) :
    endsQualifier (c :: rest) = true := by
  simp [endsQualifier, hc]

theorem Layout.ne_of_isGap {c : Char} (h : layout.isGap c = true) :
    isWordChar c = false ∧ c ≠ '&' := by
  refine ⟨isWordChar_of_isGap h, ?_⟩
  rintro rfl
  exact absurd (isBlank_of_isGap h) (by decide)

theorem endsQualifier_gap {c : Char} (hgap : gap.all layout.isGap = true)
    (hc : isWordChar c = false ∧ c ≠ '&') (rest : Text) :
    endsQualifier (gap ++ c :: rest) = true := by
  cases gap with
  | nil => exact endsQualifier_cons hc rest
  | cons d others =>
      obtain ⟨hd, -⟩ := Bool.and_eq_true_iff.mp hgap
      exact endsQualifier_cons (Layout.ne_of_isGap hd) _

theorem isWordChar_or_of_mem_qualifierWords {word : Text} {c : Char}
    (hword : word ∈ qualifierWords) (hc : c ∈ word) : isWordChar c = true ∨ c = '&' := by
  have hall : (qualifierWords.all fun word => word.all fun c => isWordChar c || c == '&') =
      true := by
    decide
  have hchar := List.all_eq_true.mp (List.all_eq_true.mp hall word hword) c hc
  simpa using hchar

theorem pairwise_qualifierWords :
    qualifierWords.Pairwise fun earlier later => ¬earlier <+: later := by
  decide

/-- What is in front of a qualifier in the order of trial is not read in its place. -/
theorem afterQualifier?_eq_none {word other : Text} (hother : other ∈ qualifierWords)
    (hne : ¬other <+: word) (hrest : endsQualifier rest = true) :
    afterQualifier? (word ++ rest) other = none := by
  rw [afterQualifier?, Option.filter_eq_none_iff]
  intro behind hdrop
  exfalso
  have hsplit := Text.dropLead?_eq_some_iff.mp hdrop
  rcases List.append_eq_append_iff.mp hsplit with ⟨inner, hword, -⟩ | ⟨inner, hlonger, hinner⟩
  · exact hne ⟨inner, hword.symm⟩
  · cases inner with
    | nil => exact hne ⟨[], by rw [hlonger, List.append_nil, List.append_nil]⟩
    | cons c others =>
        have hc : c ∈ other := by simp [hlonger]
        rw [hinner] at hrest
        rcases isWordChar_or_of_mem_qualifierWords hother hc with hword | rfl
        · simp [endsQualifier, hword] at hrest
        · simp [endsQualifier] at hrest

theorem afterQualifier?_self {word : Text} (hrest : endsQualifier rest = true) :
    afterQualifier? (word ++ rest) word = some rest := by
  rw [afterQualifier?, Text.dropLead?_eq_some_iff.mpr rfl, Option.filter_some]
  have hhead : Text.inWord rest.head? = false := by
    cases hcase : rest.head? with
    | none => rfl
    | some c =>
        simp only [endsQualifier, hcase, Option.any_some, Bool.not_or, Bool.and_eq_true,
          Bool.not_eq_true'] at hrest
        exact hrest.1
  rw [hhead, Bool.and_false]
  rfl

theorem head?_any_isGap {word : Text} (hword : word ∈ qualifierWords) :
    (word ++ rest).head?.any layout.isGap = false := by
  have hall : ∀ word ∈ qualifierWords, word.head?.any isBlank = false := by decide
  have hne := qualifierWords_ne_nil hword
  rw [List.head?_append_of_ne_nil _ hne, List.head?_eq_some_head hne]
  rw [Option.any_some, Bool.eq_false_iff]
  intro hgap
  have hblank := Layout.isBlank_of_isGap hgap
  have hhead := hall word hword
  rw [List.head?_eq_some_head hne, Option.any_some, hblank] at hhead
  cases hhead

theorem qualifier?_append_of_mem {word : Text} (hgap : gap.all layout.isGap = true)
    (hword : word ∈ qualifierWords) (hrest : endsQualifier rest = true) :
    qualifier? layout (gap ++ (word ++ rest)) = some (⟨gap, word⟩, rest) := by
  have hhead : (word ++ rest).head?.any layout.isGap = false := head?_any_isGap hword
  rw [qualifier?, Text.takeWhile_run (List.all_eq_true.mp hgap) hhead,
    Text.dropWhile_run (List.all_eq_true.mp hgap) hhead, List.findSome?_eq_some_iff]
  obtain ⟨front, back, hwords⟩ := List.append_of_mem hword
  refine ⟨front, word, back, hwords, ?_, ?_⟩
  · rw [afterQualifier?_self hrest]
    rfl
  · intro other hother
    have hapart := pairwise_qualifierWords
    rw [hwords, List.pairwise_append] at hapart
    have hne : ¬other <+: word := hapart.2.2 other hother word List.mem_cons_self
    have hmem : other ∈ qualifierWords := by
      rw [hwords]
      exact List.mem_append_left _ hother
    rw [afterQualifier?_eq_none hmem hne hrest]
    rfl

/-- No qualifier stands where, after a gap, the text goes on with a character of none. -/
theorem qualifier?_eq_none {c : Char} (hgap : gap.all layout.isGap = true)
    (hc : isWordChar c = false ∧ c ≠ '&') (hstop : layout.isGap c = false) (rest : Text) :
    qualifier? layout (gap ++ c :: rest) = none := by
  have hhead : (c :: rest).head?.any layout.isGap = false := hstop
  rw [qualifier?, Text.takeWhile_run (List.all_eq_true.mp hgap) hhead,
    Text.dropWhile_run (List.all_eq_true.mp hgap) hhead, List.findSome?_eq_none_iff]
  intro word hword
  have hne := qualifierWords_ne_nil hword
  have hnone : afterQualifier? ([] ++ c :: rest) word = none :=
    afterQualifier?_eq_none hword (by simpa using hne) (by simp [endsQualifier, hc])
  rw [List.nil_append] at hnone
  rw [hnone]
  rfl

theorem qualifiers_of_none {text : Text} (h : qualifier? layout text = none) :
    qualifiers layout text = ([], text) := by
  rw [qualifiers]
  split
  next => rfl
  next hsome =>
    rw [h] at hsome
    cases hsome

theorem qualifiers_of_qualifier? {text : Text} {qualifier : Qualifier}
    (h : qualifier? layout text = some (qualifier, rest)) :
    qualifiers layout text =
      (qualifier :: (qualifiers layout rest).1, (qualifiers layout rest).2) := by
  rw [qualifiers]
  split
  next hnone =>
    rw [h] at hnone
    cases hnone
  next qualifier' rest' hsome =>
    rw [h] at hsome
    obtain ⟨rfl, rfl⟩ := Prod.mk.inj (Option.some.inj hsome)
    rfl

theorem qualifiers_append_of_areApart {list : List Qualifier} (h : AreApart layout list)
    (hrest : endsQualifier rest = true) (hnone : qualifier? layout rest = none) :
    qualifiers layout (qualifiersText list ++ rest) = (list, rest) := by
  induction list with
  | nil =>
      rw [qualifiersText, List.flatMap_nil, List.nil_append, qualifiers_of_none hnone]
  | cons qualifier others ih =>
      have hothers : AreApart layout others := by
        refine ⟨fun other hmem => h.words other (List.mem_cons_of_mem _ hmem),
          fun other hmem => h.gaps other (List.mem_cons_of_mem _ hmem), ?_⟩
        intro other hmem
        exact h.apart other (List.mem_of_mem_tail hmem)
      have hends : endsQualifier (qualifiersText others ++ rest) = true := by
        cases others with
        | nil => exact hrest
        | cons next later =>
            -- The next qualifier begins with a gap.
            have hgap := h.gaps next (List.mem_cons_of_mem _ List.mem_cons_self)
            obtain ⟨c, gap, hcons⟩ := List.exists_cons_of_ne_nil (h.apart next List.mem_cons_self)
            rw [hcons, List.all_cons, Bool.and_eq_true] at hgap
            have hends := endsQualifier_cons (Layout.ne_of_isGap hgap.1)
              (gap ++ (next.word ++ (qualifiersText later ++ rest)))
            simpa [qualifiersText, Qualifier.text, hcons] using hends
      have hfirst := qualifier?_append_of_mem (h.gaps qualifier List.mem_cons_self)
        (h.words qualifier List.mem_cons_self) hends
      have htext : qualifiersText (qualifier :: others) ++ rest =
          qualifier.gap ++ (qualifier.word ++ (qualifiersText others ++ rest)) := by
        simp [qualifiersText, Qualifier.text]
      rw [htext, qualifiers_of_qualifier? hfirst, ih hothers]

end Signature

end MemberSplit
