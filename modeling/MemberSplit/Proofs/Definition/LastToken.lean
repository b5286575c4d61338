import MemberSplit.Proofs.Definition.TypeTokens
import MemberSplit.Proofs.Text.Brackets

/-!
# What cutting off a name does to the tokens

In a declaration with single spaces the last token is cut off if it can be the name of a
parameter: it has to be an identifier by itself, and something else than a single word that goes on
has to stand in front of it.
-/

namespace MemberSplit

namespace Text

theorem joinWith_ends {parts : List Text}
    (h : ∀ part ∈ parts, part ≠ [] ∧ ∀ c ∈ part, isBlank c = false) :
    (joinWith [' '] parts).head?.any isBlank = false ∧
      (joinWith [' '] parts).getLast?.any isBlank = false := by
  have hhead : ∀ {part : Text} (rest : Text), part ≠ [] → (∀ c ∈ part, isBlank c = false) →
      (part ++ rest).head?.any isBlank = false := by
    intro part rest hne hvisible
    obtain ⟨c, others, rfl⟩ := List.exists_cons_of_ne_nil hne
    simpa using hvisible c List.mem_cons_self
  induction parts with
  | nil => exact ⟨rfl, rfl⟩
  | cons part rest ih =>
      obtain ⟨⟨hne, hvisible⟩, hrest⟩ := List.forall_mem_cons.mp h
      obtain ⟨tail, hjoin, -⟩ := exists_joinWith_cons [' '] part rest
      refine ⟨hjoin ▸ hhead tail hne hvisible, ?_⟩
      cases rest with
      | nil =>
          have hlast := List.getLast?_eq_some_getLast hne
          simpa [joinWith, hlast] using hvisible _ (List.getLast_mem hne)
      | cons next others =>
          obtain ⟨-, hlast⟩ := ih hrest
          have hnext : joinWith [' '] (next :: others) ≠ [] := by
            obtain ⟨tail, hjoin, -⟩ := exists_joinWith_cons [' '] next others
            rw [hjoin]
            exact List.append_ne_nil_of_left_ne_nil (hrest next List.mem_cons_self).1 _
          rw [joinWith_cons_cons, List.getLast?_append_of_ne_nil _ hnext]
          exact hlast

theorem collapseBlanks_ends (text : Text) : text.collapseBlanks.head?.any isBlank = false ∧
    text.collapseBlanks.getLast?.any isBlank = false :=
  joinWith_ends fun _ => visible_of_mem_words

end Text

namespace ParameterType

variable {declaration front name : Text} {words : List Text}

/-- A last word is kept if it is no name, or if nothing that ends a type stands in front of it. -/
theorem withoutName_eq_self {word : Text} (hends : EndsPlain (front ++ word))
    (hword : ∀ c ∈ word, isWordChar c = true) (hfront : front.getLast?.any isWordChar = false)
    (h : word = [] ∨ front.getLast?.any endsType = false) :
    withoutName (front ++ word) = front ++ word := by
  have hloose : looseFront? (front ++ word) = none := by
    rw [looseFront?, Text.rtakeWhile_run hword hfront, Text.rdropWhile_run hword hfront]
    rcases h with rfl | hnone
    · rfl
    · rw [hnone, Bool.and_false, Bool.false_and]
      rfl
  rw [withoutName_eq hends, hloose]
  rfl

theorem eq_nil_of_tokens {blanks : Text} (h : tokens blanks = []) (rest : Text)
    (hhead : (blanks ++ rest).head?.any isBlank = false) : blanks = [] := by
  cases blanks with
  | nil => rfl
  | cons c others =>
      have hc : isBlank c = false := hhead
      obtain ⟨token, htoken, -⟩ := exists_mem_tokens (List.mem_cons_self (l := others)) hc
      rw [h] at htoken
      cases htoken

theorem tokens_of_mem_openWords {word : Text} (h : word ∈ openWords) : tokens word = [word] := by
  have hall : ∀ word ∈ openWords, tokens word = [word] := by decide
  exact hall word h

theorem isReference_of_isIdentifier (h : Name.isIdentifier name = true) :
    ∀ c ∈ name, isReference c = false := by
  intro c hc
  have hword := Name.isWordChar_of_isIdentifier h c hc
  rw [Bool.eq_false_iff]
  intro hmark
  rcases Bool.or_eq_true_iff.mp hmark with hmark | hmark <;> rw [eq_of_beq hmark] at hword <;>
    exact absurd hword (by decide)

/-- Behind a mark there is no name. -/
theorem withoutName_of_mark {c : Char} (hends : EndsPlain declaration)
    (hlast : declaration.getLast?.any isBlank = false) (hc : isReference c = true)
    (h : tokens declaration = words ++ [[c]]) : withoutName declaration = declaration := by
  obtain ⟨front, rfl, -, -⟩ := exists_last_token hlast h
  have hword : isWordChar c = false := by
    rcases Bool.or_eq_true_iff.mp hc with hmark | hmark <;> rw [eq_of_beq hmark] <;> decide
  have hword' : (front ++ [c]).getLast?.any isWordChar = false := by
    rw [List.getLast?_concat]
    exact hword
  rw [← List.append_nil (front ++ [c])] at hends ⊢
  exact withoutName_eq_self hends (by simp) hword' (.inl rfl)

/-- A name behind two colons is no name of a parameter. -/
theorem withoutName_of_scope {scope : Text} (hends : EndsPlain declaration)
    (hlast : declaration.getLast?.any isBlank = false) (hname : Name.isIdentifier name = true)
    (hscope : scope.getLast? = some ':') (h : tokens declaration = words ++ [scope ++ name]) :
    withoutName declaration = declaration := by
  obtain ⟨front, rfl, -, -⟩ := exists_last_token hlast h
  rw [← List.append_assoc] at hends ⊢
  have hcolon : (front ++ scope).getLast? = some ':' := by
    rw [List.getLast?_append, hscope, Option.some_or]
  refine withoutName_eq_self hends (Name.isWordChar_of_isIdentifier hname) ?_ (.inr ?_)
  · rw [hcolon]
    decide
  · rw [hcolon]
    decide

/-- A single word is no name. -/
theorem withoutName_of_single (hends : EndsPlain declaration)
    (hhead : declaration.head?.any isBlank = false)
    (hlast : declaration.getLast?.any isBlank = false) (hname : Name.isIdentifier name = true)
    (h : tokens declaration = [name]) :
    withoutName declaration = declaration := by
  obtain ⟨front, rfl, hfront, -⟩ := exists_last_token hlast (h.trans (List.nil_append _).symm)
  obtain rfl := eq_nil_of_tokens hfront name hhead
  exact withoutName_eq_self hends (Name.isWordChar_of_isIdentifier hname) rfl (.inr rfl)

/-- An identifier that is the last token stands at the end, behind something that ends a type. -/
theorem exists_front_of_tokens (hname : Name.isIdentifier name = true)
    (hlast : declaration.getLast?.any isBlank = false) (hne : words ≠ [])
    (h : tokens declaration = words ++ [name]) :
    ∃ front, declaration = front ++ name ∧ tokens front = words ∧
      front.getLast?.any endsType = true := by
  obtain ⟨front, rfl, hfront, hplain⟩ := exists_last_token hlast h
  refine ⟨front, rfl, hfront, ?_⟩
  have hplain := hplain (isReference_of_isIdentifier hname)
  cases hend : front.getLast? with
  | none =>
      rw [List.getLast?_eq_none_iff.mp hend] at hfront
      exact absurd hfront.symm hne
  | some c =>
      rw [hend] at hplain
      rcases isPlain_eq_false_iff.mp hplain with hblank | hmark
      · simp [endsType, hblank]
      · rcases Bool.or_eq_true_iff.mp hmark with hmark | hmark <;> simp [endsType, eq_of_beq hmark]

/-- The last token is cut off if it can be a name, unless a word that goes on is the only other. -/
theorem tokens_withoutName (hname : Name.isIdentifier name = true)
    (hlast : declaration.getLast?.any isBlank = false) (hne : words ≠ [])
    (hopen : ∀ word ∈ openWords, words ≠ [word]) (h : tokens declaration = words ++ [name]) :
    tokens (withoutName declaration) = words := by
  obtain ⟨front, rfl, hfront, hends⟩ := exists_front_of_tokens hname hlast hne h
  have hkept : (Text.trimEnd front).isEmpty = false ∧
      openWords.contains (Text.trimEnd front) = false := by
    refine ⟨?_, ?_⟩
    · rw [Bool.eq_false_iff, ne_eq, List.isEmpty_iff]
      intro hnil
      rw [← tokens_trimEnd, hnil] at hfront
      exact hne hfront.symm
    · rw [Bool.eq_false_iff, ne_eq, List.contains_iff_mem]
      intro hmem
      rw [← tokens_trimEnd, tokens_of_mem_openWords hmem] at hfront
      exact hopen _ hmem hfront.symm
  rw [withoutName_append hname front hends, hkept.1, hkept.2]
  exact (tokens_trimEnd front).trans hfront

/-- Behind a word that goes on no name is cut off. -/
theorem withoutName_of_mem_openWords {word : Text} (hword : word ∈ openWords)
    (hname : Name.isIdentifier name = true) (hhead : declaration.head?.any isBlank = false)
    (hlast : declaration.getLast?.any isBlank = false) (h : tokens declaration = [word, name]) :
    withoutName declaration = declaration := by
  have hne : [word] ≠ [] := List.cons_ne_nil _ _
  obtain ⟨front, rfl, hfront, hends⟩ := exists_front_of_tokens hname hlast hne h
  -- The front is the word and white space: nothing stands before its only token.
  have htrim : Text.trimEnd front = word := by
    have hends : (Text.trimEnd front).getLast?.any isBlank = false :=
      Text.any_getLast?_rdropWhile isBlank front
    have hfront : tokens (Text.trimEnd front) = [] ++ [word] := (tokens_trimEnd front).trans hfront
    obtain ⟨before, hbefore, hnone, -⟩ := exists_last_token hends hfront
    have hsplit : Text.trimEnd front ++ front.rtakeWhile isBlank = front :=
      List.rdropWhile_append_rtakeWhile
    rw [← hsplit, hbefore, List.append_assoc, List.append_assoc] at hhead
    rw [hbefore, eq_nil_of_tokens hnone _ hhead, List.nil_append]
  rw [withoutName_append hname front hends, htrim, List.contains_iff_mem.mpr hword, Bool.or_true]
  rfl

end ParameterType

end MemberSplit
