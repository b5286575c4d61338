import MemberSplit.Proofs.Definition.TypeTokens

/-!
# The bare type of a declaration

A type has words in front of its name, and qualifiers and marks behind it. The bare type is this
name, whatever stands around it, as long as the name is a token of what is kept of the declaration.
-/

namespace MemberSplit

theorem Text.subset_of_mem_words {text word : Text} (h : word ∈ words text) : word ⊆ text := by
  induction text using induction_on_breaks isBlank with
  | run run hrun =>
      rw [words_of_visible hrun] at h
      split at h
      next => cases h
      next =>
        rw [List.mem_singleton.mp h]
        exact List.Subset.refl _
  | step run c rest hrun hc ih =>
      rw [words_append_cons hc, words_of_visible hrun] at h
      rcases List.mem_append.mp h with hword | hrest
      · split at hword
        next => cases hword
        next =>
          rw [List.mem_singleton.mp hword]
          exact List.subset_append_left _ _
      · exact fun d hd => by simp [ih hrest hd]

namespace ParameterType

variable {type text : Text} {lead marks : List Text}

/-- Qualifiers and marks that can stand behind the name of a type. -/
def decorations : List Text :=
  ["const", "volatile", "&", "*"].map String.toList

/-- The text with spaces for its marks. -/
def unmarked (text : Text) : Text :=
  text.map fun c => if c = '&' || c = '*' then ' ' else c

/-- The token is a word. -/
def isWord (token : Text) : Bool :=
  !token.any isReference

/-- The word is no qualifier. -/
def isUnqualified (word : Text) : Bool :=
  word ≠ "const".toList && word ≠ "volatile".toList

theorem unmarked_eq_self (h : ∀ c ∈ text, isReference c = false) : unmarked text = text := by
  refine (List.map_congr_left fun c hc => ?_).trans (List.map_id text)
  have hplain := h c hc
  simp only [isReference, Bool.or_eq_false_iff, beq_eq_false_iff_ne] at hplain
  simp [hplain]

theorem words_unmarked (text : Text) :
    Text.words (unmarked text) = (tokens text).filter isWord := by
  have hrun : ∀ run : Text, (∀ c ∈ run, isReference c = false) →
      Text.words (unmarked run) = (tokens run).filter isWord := by
    intro run hrun
    rw [unmarked_eq_self hrun, tokens, spaced_eq_self hrun, List.filter_eq_self.mpr]
    intro word hword
    have hplain : ∀ c ∈ word, isReference c = false := fun c hc =>
      hrun c (Text.subset_of_mem_words hword hc)
    simpa [isWord] using hplain
  induction text using Text.induction_on_breaks isReference with
  | run run hplain => exact hrun run hplain
  | step run c rest hplain hc ih =>
      have hunmarked : unmarked (run ++ c :: rest) = unmarked run ++ ' ' :: unmarked rest := by
        have hspace : (if c = '&' || c = '*' then ' ' else c) = ' ' := if_pos hc
        rw [unmarked, List.map_append, List.map_cons, hspace]
        rfl
      rw [hunmarked, Text.words_append_cons rfl, hrun run hplain, ih, tokens_append_mark hc,
        List.filter_append, List.filter_cons_of_neg (by simp [isWord, hc])]

/-- The bare type is made of the words of what stands behind the words in front. -/
theorem base_eq (type : Text) : base type =
    Text.joinWith [' ']
      ((((dropLeadWords type.words).flatMap tokens).filter isWord).filter isUnqualified) := by
  rw [← tokens_joinWith, ← words_unmarked]
  rfl

theorem tokens_of_mem_leadWords {word : Text} (h : word ∈ leadWords) : tokens word = [word] := by
  have hall : ∀ word ∈ leadWords, tokens word = [word] := by decide
  exact hall word h

theorem visible_of_mem_leadWords {word : Text} (h : word ∈ leadWords) :
    ∀ c ∈ word, isBlank c = false ∧ isReference c = false := by
  have hall : (leadWords.all fun word => word.all fun c =>
      !isBlank c && !isReference c) = true := by decide
  intro c hc
  simpa using List.all_eq_true.mp (List.all_eq_true.mp hall word h) c hc

theorem isWord_of_mem_leadWords {word : Text} (h : word ∈ leadWords) : isWord word = true := by
  simpa [isWord] using fun c hc => (visible_of_mem_leadWords h c hc).2

/-- Between two words there is white space. -/
theorem isBlank_of_tokens (hrest : text.head?.any isPlain = false)
    (h : ∃ word others, tokens text = word :: others ∧ isWord word = true) :
    ∃ c rest, text = c :: rest ∧ isBlank c = true := by
  obtain ⟨word, others, htokens, hword⟩ := h
  cases text with
  | nil => cases htokens
  | cons c rest =>
      refine ⟨c, rest, rfl, (isPlain_eq_false_iff.mp hrest).resolve_right fun hmark => ?_⟩
      have hcons : tokens (c :: rest) = [c] :: tokens rest := tokens_append_mark hmark [] rest
      rw [hcons] at htokens
      obtain ⟨rfl, -⟩ := List.cons.inj htokens
      simp [isWord, hmark] at hword

theorem words_ne_nil (h : tokens text ≠ []) : text.words ≠ [] := by
  intro hnil
  rw [← flatMap_tokens_words, hnil] at h
  exact h rfl

/-- A text that does not begin with a word in front of a type loses nothing. -/
theorem dropLeadWords_eq_self (htype : type ∉ leadWords) (h : tokens text = type :: marks) :
    dropLeadWords text.words = text.words := by
  cases hwords : text.words with
  | nil => rfl
  | cons first others =>
      cases others with
      | nil => rfl
      | cons next rest =>
          refine if_neg fun hfirst => ?_
          have hfirst := List.contains_iff_mem.mp hfirst
          rw [← flatMap_tokens_words, hwords, List.flatMap_cons,
            tokens_of_mem_leadWords hfirst] at h
          obtain ⟨rfl, -⟩ := List.cons.inj h
          exact htype hfirst

/-- A word in front of a type is a word of the text, if a word follows. -/
theorem exists_words_eq_cons {word next : Text} {more : List Text} (hword : word ∈ leadWords)
    (hnext : isWord next = true) (h : tokens text = word :: next :: more) :
    ∃ later, text.words = word :: Text.words later ∧ tokens later = next :: more := by
  obtain ⟨blanks, rest, rfl, hblanks, hrest, hbehind⟩ := exists_first_token h
  have hvisible := visible_of_mem_leadWords hword
  obtain ⟨c, later, rfl, hblank⟩ :=
    isBlank_of_tokens (hbehind fun d hd => (hvisible d hd).2) ⟨next, more, hrest, hnext⟩
  have hne : word ≠ [] := by
    rintro rfl
    exact absurd hword (by decide)
  refine ⟨later, ?_, (tokens_append_blank hblank [] later).symm.trans hrest⟩
  rw [Text.words_blanks_append hblanks, Text.words_append_cons hblank,
    Text.words_of_visible fun d hd => (hvisible d hd).1, if_neg hne, List.singleton_append]

/-- The words in front of the name of a type are dropped. -/
theorem flatMap_tokens_dropLeadWords (hlead : ∀ word ∈ lead, word ∈ leadWords)
    (hword : isWord type = true) (htype : type ∉ leadWords)
    (h : tokens text = lead ++ type :: marks) :
    (dropLeadWords text.words).flatMap tokens = type :: marks := by
  induction lead generalizing text with
  | nil =>
      rw [List.nil_append] at h
      rw [dropLeadWords_eq_self htype h, flatMap_tokens_words, h]
  | cons word others ih =>
      obtain ⟨hfirst, hothers⟩ := List.forall_mem_cons.mp hlead
      obtain ⟨next, more, hrest, hnext⟩ : ∃ next more,
          others ++ type :: marks = next :: more ∧ isWord next = true := by
        cases others with
        | nil => exact ⟨type, marks, rfl, hword⟩
        | cons next more => exact ⟨next, _, rfl, isWord_of_mem_leadWords (hothers next (by simp))⟩
      rw [List.cons_append, hrest] at h
      obtain ⟨later, hwords, hlater⟩ := exists_words_eq_cons hfirst hnext h
      have hne : Text.words later ≠ [] := words_ne_nil (by rw [hlater]; simp)
      obtain ⟨first, rest, hmore⟩ := List.exists_cons_of_ne_nil hne
      have hdrop : dropLeadWords (word :: first :: rest) = dropLeadWords (first :: rest) :=
        if_pos (List.contains_iff_mem.mpr hfirst)
      rw [hwords, hmore, hdrop, ← hmore]
      exact ih hothers (hlater.trans hrest.symm)

theorem dropLeadWords_suffix (words : List Text) : dropLeadWords words <:+ words := by
  fun_induction dropLeadWords words with
  | case1 word next rest _ ih => exact ih.trans (List.suffix_cons _ _)
  | case2 => exact List.suffix_rfl
  | case3 => exact List.suffix_rfl

/-- The name of a type is found between the words in front of it and what decorates it. -/
theorem base_of_tokens (hlead : ∀ word ∈ lead, word ∈ leadWords) (hword : isWord type = true)
    (htype : type ∉ leadWords) (hmarks : ∀ mark ∈ marks, mark ∈ decorations)
    (h : tokens text = lead ++ type :: marks) : base text = type := by
  have hnone : (marks.filter isWord).filter isUnqualified = [] := by
    rw [List.filter_filter, List.filter_eq_nil_iff]
    have hall : ∀ mark ∈ decorations, ¬(isUnqualified mark && isWord mark) = true := by decide
    exact fun mark hmark => hall mark (hmarks mark hmark)
  have hkept : isUnqualified type = true := by
    have hconst : type ≠ "const".toList := fun heq => htype (heq ▸ by decide)
    have hvolatile : type ≠ "volatile".toList := fun heq => htype (heq ▸ by decide)
    exact Bool.and_eq_true_iff.mpr ⟨decide_eq_true hconst, decide_eq_true hvolatile⟩
  rw [base_eq, flatMap_tokens_dropLeadWords hlead hword htype h, List.filter_cons_of_pos hword,
    List.filter_cons_of_pos hkept, hnone]
  simp [Text.joinWith]

/-- Words in front of a type alone have no other bare type. -/
theorem base_ne_of_tokens (hlead : ∀ word ∈ tokens text, word ∈ leadWords)
    (htype : tokens type = [type]) (hnot : type ∉ leadWords) : base text ≠ type := by
  intro hbase
  have hmem : type ∈ tokens (base text) := by
    rw [hbase, htype]
    exact List.mem_cons_self
  rw [base_eq, tokens_joinWith] at hmem
  obtain ⟨word, hkept, hword⟩ := List.mem_flatMap.mp hmem
  have hlater := (List.mem_filter.mp (List.mem_filter.mp hkept).1).1
  obtain ⟨part, hpart, hfound⟩ := List.mem_flatMap.mp hlater
  have hleadWord : word ∈ leadWords := by
    apply hlead
    rw [← flatMap_tokens_words]
    exact List.mem_flatMap.mpr ⟨part, (dropLeadWords_suffix _).subset hpart, hfound⟩
  rw [tokens_of_mem_leadWords hleadWord] at hword
  rw [List.mem_singleton.mp hword] at hnot
  exact hnot hleadWord

end ParameterType

end MemberSplit
