import Mathlib.Data.List.Chain
import MemberSplit.Proofs.Signature.Grammar
import MemberSplit.Proofs.Signature.Parts
import MemberSplit.Proofs.Text.Words

/-!
# When a member is seen to be constant

A signature is read qualifier by qualifier, and its text is then looked through for the word `const`
between white space. The two agree but for one case: an ampersand needs no white space beside it, so
a `const` that an ampersand touches is a qualifier, but no word.
-/

namespace MemberSplit.Signature

variable {layout : Layout} {list : List Qualifier} {run text : Text}

/-- The word that marks a constant member. -/
def constWord : Text := "const".toList

/-- The second of two qualifiers can stand behind the first: between two words there is a gap. -/
def Qualifier.MayPrecede (first second : Qualifier) : Prop :=
  second.gap = [] → (Text.inWord first.word.getLast? && Text.inWord second.word.head?) = false

/-- The qualifiers are known words behind gaps, and can stand one behind the other. -/
structure AreInRow (layout : Layout) (list : List Qualifier) : Prop where
  words : ∀ qualifier ∈ list, qualifier.word ∈ qualifierWords
  gaps : ∀ qualifier ∈ list, ∀ c ∈ qualifier.gap, layout.isGap c = true
  neighbours : list.IsChain Qualifier.MayPrecede

/-- One of the qualifiers is `const`, and no ampersand touches it. -/
def HasFreeConst (list : List Qualifier) : Prop :=
  ∃ before qualifier after, list = before ++ qualifier :: after ∧ qualifier.word = constWord ∧
    (∀ previous ∈ before.getLast?, qualifier.gap = [] → '&' ∉ previous.word) ∧
    ∀ next ∈ after.head?, next.gap = [] → '&' ∉ next.word

theorem gap_of_qualifier? {rest : Text} {qualifier : Qualifier}
    (h : qualifier? layout text = some (qualifier, rest)) :
    (∀ c ∈ qualifier.gap, layout.isGap c = true) ∧
      (Text.inWord qualifier.word.getLast? && Text.inWord rest.head?) = false := by
  obtain ⟨word, -, hword⟩ := List.exists_of_findSome?_eq_some h
  obtain ⟨rest', hrest, heq⟩ := Option.map_eq_some_iff.mp hword
  obtain ⟨rfl, rfl⟩ := Prod.mk.inj heq
  obtain ⟨-, hbound⟩ := Option.filter_eq_some_iff.mp hrest
  exact ⟨fun _ => List.mem_takeWhile_imp, (Bool.not_eq_true' _).mp hbound⟩

theorem areInRow_qualifiers (layout : Layout) (text : Text) :
    AreInRow layout (qualifiers layout text).1 := by
  fun_induction qualifiers layout text with
  | case1 text h => exact ⟨by simp, by simp, .nil⟩
  | case2 text qualifier rest h others remaining hothers ih =>
      obtain ⟨hgap, hbound⟩ := gap_of_qualifier? h
      have hrest := qualifiers_append layout rest
      rw [hothers] at ih hrest
      refine ⟨List.forall_mem_cons.mpr ⟨(qualifier?_append h).2, ih.words⟩,
        List.forall_mem_cons.mpr ⟨hgap, ih.gaps⟩, ?_⟩
      cases others with
      | nil => exact .singleton _
      | cons next later =>
          refine .cons_cons (fun hnone => ?_) ih.neighbours
          -- Without a gap the text goes on with the next word.
          have hne := qualifierWords_ne_nil (ih.words next List.mem_cons_self)
          have hhead : rest.head? = next.word.head? := by
            rw [← hrest]
            simp [qualifiersText, Qualifier.text, hnone, List.head?_append_of_ne_nil _ hne]
          rwa [hhead] at hbound

theorem Parts.AreRead.areInRow {parts : Parts} {pattern : Pattern} {body : Text}
    (h : parts.AreRead pattern body) : AreInRow pattern.layout parts.qualifiers := by
  obtain ⟨text, others, inner, behind, -, -, -, hqualifiers, -⟩ := h.exists_pieces
  rw [hqualifiers]
  exact areInRow_qualifiers _ _

theorem visible_of_mem_qualifierWords {word : Text} (h : word ∈ qualifierWords) :
    ∀ c ∈ word, isBlank c = false := by
  have hall : (qualifierWords.all fun word => word.all fun c => !isBlank c) = true := by decide
  intro c hc
  simpa using List.all_eq_true.mp (List.all_eq_true.mp hall word h) c hc

/-- Only the whole word ends like `const`. -/
theorem append_eq_constWord_iff {word : Text} (h : word ∈ qualifierWords) :
    run ++ word = constWord ↔ run = [] ∧ word = constWord := by
  have hsuffix : ∀ word ∈ qualifierWords, word <:+ constWord → word = constWord := by decide
  refine ⟨fun heq => ?_, fun ⟨hrun, hword⟩ => by rw [hrun, hword, List.nil_append]⟩
  have hword := hsuffix word h ⟨run, heq⟩
  refine ⟨?_, hword⟩
  rw [hword] at heq
  exact List.append_left_eq_self.mp heq

/-- A place in a list that is not empty is the first one or a later one. -/
theorem exists_append_cons_iff {α : Type} {first : α} {rest : List α}
    {P : List α → α → List α → Prop} :
    (∃ before a after, first :: rest = before ++ a :: after ∧ P before a after) ↔
      P [] first rest ∨
        ∃ before a after, rest = before ++ a :: after ∧ P (first :: before) a after := by
  constructor
  · rintro ⟨before, a, after, hlist, h⟩
    cases before with
    | nil =>
        obtain ⟨rfl, rfl⟩ := List.cons.inj hlist
        exact .inl h
    | cons b others =>
        obtain ⟨rfl, hrest⟩ := List.cons.inj hlist
        exact .inr ⟨others, a, after, hrest, h⟩
  · rintro (h | ⟨before, a, after, rfl, h⟩)
    · exact ⟨[], first, rest, rfl, h⟩
    · exact ⟨first :: before, a, after, rfl, h⟩

theorem constWord_mem_words_iff (hrun : ∀ c ∈ run, isBlank c = false) :
    constWord ∈ Text.words run ↔ run = constWord := by
  rw [Text.words_of_visible hrun]
  split
  next hnil => simp [hnil, constWord]
  next => simp [eq_comm]

/-- The words of qualifiers behind a run: `const` is the run, or a qualifier with gaps around it. -/
theorem mem_words_append_iff (hrun : ∀ c ∈ run, isBlank c = false)
    (hwords : ∀ qualifier ∈ list, qualifier.word ∈ qualifierWords)
    (hgaps : ∀ qualifier ∈ list, ∀ c ∈ qualifier.gap, layout.isGap c = true) :
    constWord ∈ Text.words (run ++ qualifiersText list) ↔
      (run = constWord ∧ ∀ next ∈ list.head?, next.gap ≠ []) ∨
        ∃ before qualifier after, list = before ++ qualifier :: after ∧
          (qualifier.word = constWord ∧ (qualifier.gap = [] → run = [] ∧ before = []) ∧
            ∀ next ∈ after.head?, next.gap ≠ []) := by
  induction list generalizing run with
  | nil => simp [qualifiersText, constWord_mem_words_iff hrun]
  | cons qualifier others ih =>
      obtain ⟨hword, hwords⟩ := List.forall_mem_cons.mp hwords
      obtain ⟨hgap, hgaps⟩ := List.forall_mem_cons.mp hgaps
      have hvisible := visible_of_mem_qualifierWords hword
      have hne := qualifierWords_ne_nil hword
      have htext : run ++ qualifiersText (qualifier :: others) =
          run ++ (qualifier.gap ++ (qualifier.word ++ qualifiersText others)) := by
        simp [qualifiersText, Qualifier.text]
      rw [htext, exists_append_cons_iff]
      by_cases hnone : qualifier.gap = []
      · -- The qualifier goes on with the run.
        have hlonger : ∀ c ∈ run ++ qualifier.word, isBlank c = false := fun c hc =>
          (List.mem_append.mp hc).elim (hrun c) (hvisible c)
        have hothers := ih hlonger hwords hgaps
        rw [append_eq_constWord_iff hword] at hothers
        rw [hnone, List.nil_append, ← List.append_assoc]
        refine hothers.trans ?_
        simp [hnone, hne, and_assoc, and_left_comm]
      · have hothers := ih hvisible hwords hgaps
        rw [Text.words_append_blanks (fun c hc => Layout.isBlank_of_isGap (hgap c hc)) hnone,
          List.mem_append, constWord_mem_words_iff hrun]
        refine (or_congr_right hothers).trans ?_
        simp [hnone, hne]

/-- A qualifier without an ampersand is a word from end to end. -/
theorem inWord_of_not_mem {word : Text} (h : word ∈ qualifierWords) (hnot : '&' ∉ word) :
    Text.inWord word.head? = true ∧ Text.inWord word.getLast? = true := by
  have hall : ∀ word ∈ qualifierWords, '&' ∉ word →
      Text.inWord word.head? = true ∧ Text.inWord word.getLast? = true := by decide
  exact hall word h hnot

/-- The word `const` stands between white space exactly if it is a free qualifier. -/
theorem mem_words_iff_hasFreeConst (h : AreInRow layout list) :
    constWord ∈ Text.words (qualifiersText list) ↔ HasFreeConst list := by
  have hempty : ∀ c ∈ ([] : Text), isBlank c = false := by simp
  have hwords := mem_words_append_iff hempty h.words h.gaps
  rw [List.nil_append] at hwords
  rw [hwords, HasFreeConst, or_iff_right (fun hrun => absurd hrun.1 (by decide))]
  refine exists_congr fun before => exists_congr fun qualifier => exists_congr fun after =>
    and_congr_right fun hlist => and_congr_right fun hconst => ?_
  subst hlist
  obtain ⟨-, hbehind, hbefore⟩ := List.isChain_append.mp h.neighbours
  have hstart : Text.inWord qualifier.word.head? = true := by
    rw [hconst]
    decide
  have hend : Text.inWord qualifier.word.getLast? = true := by
    rw [hconst]
    decide
  refine and_congr ⟨fun hgap previous hprevious hnone => ?_, fun hfree hnone => ?_⟩
    ⟨fun hgap next hnext hnone => absurd hnone (hgap next hnext),
      fun hfree next hnext hnone => ?_⟩
  · rw [(hgap hnone).2] at hprevious
    cases hprevious
  · refine ⟨rfl, List.getLast?_eq_none_iff.mp (Option.eq_none_iff_forall_not_mem.mpr ?_)⟩
    intro previous hprevious
    have hbound := hbefore previous hprevious qualifier rfl hnone
    have hmem : previous ∈ before ++ qualifier :: after :=
      List.mem_append_left _ (List.mem_of_getLast? hprevious)
    have hlast := (inWord_of_not_mem (h.words previous hmem) (hfree previous hprevious hnone)).2
    rw [hlast, hstart] at hbound
    cases hbound
  · obtain ⟨later, rfl⟩ := List.head?_eq_some_iff.mp hnext
    have hbound := (List.isChain_cons_cons.mp hbehind).1 hnone
    have hmem : next ∈ before ++ qualifier :: next :: later := by simp
    have hhead := (inWord_of_not_mem (h.words next hmem) (hfree next hnext hnone)).1
    rw [hend, hhead] at hbound
    cases hbound

theorem exists_gap_ne_nil {qualifier : Qualifier} {before after : List Qualifier}
    (hlist : list = before ++ qualifier :: after)
    (hgaps : ∀ qualifier ∈ list.tail, qualifier.gap ≠ []) :
    (qualifier.gap = [] → before = []) ∧ ∀ next ∈ after.head?, next.gap ≠ [] := by
  subst hlist
  cases before with
  | nil => exact ⟨fun _ => rfl, fun next hnext => hgaps next (List.mem_of_head? hnext)⟩
  | cons first others =>
      refine ⟨fun hnone => absurd hnone (hgaps qualifier (by simp)), fun next hnext => ?_⟩
      exact hgaps next (by simp [List.mem_of_head? hnext])

/-- A member is seen to be constant exactly if one of the qualifiers in its signature is `const` and
no ampersand touches it. So the two agree where the qualifiers have white space between them. -/
theorem isConst_iff_of_mem_signatures {pattern : Pattern} {source : Text} {signature : Signature}
    (hmem : signature ∈ pattern.signatures source) :
    (signature.isConst = true ↔ HasFreeConst signature.parts.qualifiers) ∧
      ((∀ qualifier ∈ signature.parts.qualifiers.tail, qualifier.gap ≠ []) →
        (signature.isConst = true ↔
          ∃ qualifier ∈ signature.parts.qualifiers, qualifier.word = constWord)) := by
  have hread : AreInRow pattern.layout signature.parts.qualifiers :=
    (Pattern.areRead_of_mem_signaturesFrom hmem).areInRow
  have hiff : signature.isConst = true ↔ HasFreeConst signature.parts.qualifiers := by
    rw [← mem_words_iff_hasFreeConst hread, ← List.contains_iff_mem]
    rfl
  refine ⟨hiff, fun hgaps => hiff.trans ⟨?_, ?_⟩⟩
  · rintro ⟨before, qualifier, after, hlist, hconst, -⟩
    exact ⟨qualifier, by simp [hlist], hconst⟩
  · rintro ⟨qualifier, hqualifier, hconst⟩
    obtain ⟨before, after, hlist⟩ := List.append_of_mem hqualifier
    obtain ⟨hfirst, hnext⟩ := exists_gap_ne_nil hlist hgaps
    refine ⟨before, qualifier, after, hlist, hconst, ?_, ?_⟩
    · intro previous hprevious hnone
      rw [hfirst hnone] at hprevious
      cases hprevious
    · exact fun next hmem hnone => absurd hnone (hnext next hmem)

/-- An ampersand right behind `const` hides it; behind a space it does not. -/
theorem isConst_iff_of_mem_signatures_ampersand :
    let pattern : Pattern := { owner := "Foo", layout := .wrapped }
    let source : Text := "void Foo::f() const& {}\nvoid Foo::g() const & {}\n"
    ∃ first ∈ pattern.signatures source, ∃ second ∈ pattern.signatures source,
      first.parts.qualifiers = [⟨" ", "const"⟩, ⟨"", "&"⟩] ∧
      ¬HasFreeConst first.parts.qualifiers ∧
      second.parts.qualifiers = [⟨" ", "const"⟩, ⟨" ", "&"⟩] ∧ second.isConst = true := by
  intro pattern source
  have hread : (pattern.signatures source).map
      (fun signature => (signature.isConst, signature.parts.qualifiers)) =
        [(false, [⟨" ", "const"⟩, ⟨"", "&"⟩]), (true, [⟨" ", "const"⟩, ⟨" ", "&"⟩])] := by
    decide +kernel
  obtain ⟨first, others, hlist, hfirst, hothers⟩ := List.map_eq_cons_iff.mp hread
  obtain ⟨second, later, hsecond, hread', -⟩ := List.map_eq_cons_iff.mp hothers
  obtain ⟨hhidden, hqualifiers⟩ := Prod.mk.inj hfirst
  obtain ⟨-, hqualifiers'⟩ := Prod.mk.inj hread'
  have hmem : first ∈ pattern.signatures source := by simp [hlist]
  have hmem' : second ∈ pattern.signatures source := by simp [hlist, hsecond]
  refine ⟨first, hmem, second, hmem', hqualifiers, fun hfree => ?_, hqualifiers', ?_⟩
  · rw [← (isConst_iff_of_mem_signatures hmem).1, hhidden] at hfree
    cases hfree
  · refine ((isConst_iff_of_mem_signatures hmem').2 ?_).mpr ?_
    · rw [hqualifiers']
      decide
    · rw [hqualifiers']
      exact ⟨⟨" ", "const"⟩, by decide, rfl⟩

end MemberSplit.Signature
