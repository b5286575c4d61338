import MemberSplit.Proofs.Signature.Initializers
import MemberSplit.Proofs.Text.Cut

/-!
# Braces among initializers

The brace that is taken for that of the body is the first one that is not flat, where a flat brace
stands behind a word, with spaces and tabs between them at most, and is closed before another brace
comes. So the initializers are read as a whole exactly if all braces in them are flat.
-/

namespace MemberSplit.Signature

variable {layout : Layout} {text front rest : Text}

/-- Whether a text ends in a word, spaces and tabs behind it apart. -/
def EndsInWord (text : Text) : Prop :=
  ∃ front c blanks, text = front ++ c :: blanks ∧ isWordChar c = true ∧
    ∀ d ∈ blanks, isLineBlank d = true

/-- Whether a closing brace is the first brace of a text, with no semicolon in front of it. -/
def ClosesFlat (layout : Layout) (text : Text) : Prop :=
  ∃ inner rest, text = inner ++ '}' :: rest ∧ inner.all (isInitializerChar layout) = true

/-- Every opening brace of a text stands behind a word, and its closing brace is the next one. -/
def HasFlatBraces (layout : Layout) (text : Text) : Prop :=
  ∀ before behind, text = before ++ '{' :: behind → EndsInWord before ∧ ClosesFlat layout behind

theorem EndsInWord.append (h : EndsInWord text) (front : Text) : EndsInWord (front ++ text) := by
  obtain ⟨lead, c, blanks, rfl, hc, hblanks⟩ := h
  exact ⟨front ++ lead, c, blanks, by simp, hc, hblanks⟩

/-- What stands in front of a character that is neither of a word nor blank has no part in it. -/
theorem EndsInWord.of_append {d : Char} (hd : isWordChar d = false ∧ isLineBlank d = false)
    (h : EndsInWord (front ++ d :: rest)) : EndsInWord rest := by
  obtain ⟨lead, c, blanks, htext, hc, hblanks⟩ := h
  rcases Text.exists_of_append_eq_append_cons htext with ⟨more, -, rfl⟩ | ⟨lead', -, hrest⟩
  · rw [hblanks d (by simp)] at hd
    cases hd.2
  · cases lead' with
    | nil =>
        obtain ⟨rfl, -⟩ := List.cons.inj hrest
        rw [hc] at hd
        cases hd.1
    | cons e lead'' => exact ⟨lead'', c, blanks, (List.cons.inj hrest).2, hc, hblanks⟩

/-- An initializer in braces is a word character, blanks, and braces that enclose no others. -/
theorem braceGroup?_eq_some_iff {group others : Text} :
    braceGroup? layout text = some (group, others) ↔ ∃ c blanks inner,
      text = c :: (blanks ++ '{' :: (inner ++ '}' :: others)) ∧
      group = c :: (blanks ++ '{' :: (inner ++ ['}'])) ∧ isWordChar c = true ∧
      (∀ d ∈ blanks, isLineBlank d = true) ∧ inner.all (isInitializerChar layout) = true := by
  have hinner : (fun d : Char => !(d == '{' || d == '}' || d == ';' || layout.isBreak d)) =
      isInitializerChar layout := by
    funext d
    simp [isInitializerChar, bne]
  constructor
  · intro h
    unfold braceGroup? at h
    simp only [hinner] at h
    split at h
    next => cases h
    next c rest =>
      split at h
      next => cases h
      next hc =>
        split at h
        next behind hbehind =>
          split at h
          next others' hothers =>
            obtain ⟨rfl, rfl⟩ := Prod.mk.inj (Option.some.inj h)
            refine ⟨c, rest.takeWhile isLineBlank, behind.takeWhile (isInitializerChar layout), ?_,
              by simp, by simpa using hc, fun d => List.mem_takeWhile_imp,
              List.all_takeWhile⟩
            rw [← hothers, List.takeWhile_append_dropWhile, ← hbehind,
              List.takeWhile_append_dropWhile]
          next => cases h
        next => cases h
  · rintro ⟨c, blanks, inner, rfl, rfl, hc, hblanks, hall⟩
    have hopen : ('{' :: (inner ++ '}' :: others)).head?.any isLineBlank = false := by
      simp [isLineBlank]
    have hclose : ('}' :: others).head?.any (isInitializerChar layout) = false := by
      simp [isInitializerChar]
    have hchars := List.all_eq_true.mp hall
    unfold braceGroup?
    simp only [hinner, hc, Bool.not_true, Bool.false_eq_true, if_false,
      Text.dropWhile_run hblanks hopen, Text.takeWhile_run hblanks hopen,
      Text.dropWhile_run hchars hclose, Text.takeWhile_run hchars hclose]
    simp

/-- Initializers without a semicolon are read up to some brace, if one comes. -/
theorem isSome_initializers? (h : ∀ c ∈ front, c ≠ ';' ∧ layout.isBreak c = false) (rest : Text) :
    (initializers? layout (front ++ '{' :: rest)).isSome = true := by
  induction front with
  | nil =>
      rw [List.nil_append, initializers?, if_pos rfl]
      rfl
  | cons c others ih =>
      obtain ⟨hc, hothers⟩ := List.forall_mem_cons.mp h
      have hnot : ¬(c = ';' || layout.isBreak c) = true := by simp [hc]
      rw [List.cons_append, initializers?, if_neg hnot]
      split
      next => rfl
      next =>
        split
        next => simpa using ih hothers
        next group behind _ =>
          cases initializers? layout behind with
          | none => simpa using ih hothers
          | some parts => rfl

/-- What a text begins with is flat or no brace, if the text goes on flat. -/
theorem HasFlatBraces.cons {c : Char} (hc : c ≠ '{') (h : HasFlatBraces layout rest) :
    HasFlatBraces layout (c :: rest) := by
  intro before behind hsplit
  cases before with
  | nil => exact absurd (List.cons.inj hsplit).1 hc
  | cons d others =>
      obtain ⟨rfl, hrest⟩ := List.cons.inj hsplit
      obtain ⟨hword, hclose⟩ := h others behind hrest
      exact ⟨hword.append [c], hclose⟩

theorem HasFlatBraces.group {c : Char} {blanks inner : Text} (hc : isWordChar c = true)
    (hblanks : ∀ d ∈ blanks, isLineBlank d = true)
    (hinner : inner.all (isInitializerChar layout) = true) (h : HasFlatBraces layout rest) :
    HasFlatBraces layout (c :: (blanks ++ '{' :: (inner ++ '}' :: rest))) := by
  intro before behind hsplit
  rw [← List.cons_append] at hsplit
  rcases Text.exists_of_append_eq_append_cons hsplit with ⟨more, hlead, -⟩ | ⟨more, rfl, hrest⟩
  · have hmem : '{' ∈ c :: blanks := by simp [hlead]
    rcases List.mem_cons.mp hmem with rfl | hmem
    · exact absurd hc (by decide)
    · exact absurd (hblanks '{' hmem) (by decide)
  · cases more with
    | nil =>
        obtain ⟨-, rfl⟩ := List.cons.inj hrest
        exact ⟨⟨[], c, blanks, by simp, hc, hblanks⟩, inner, rest, rfl, hinner⟩
    | cons d others =>
        obtain ⟨-, hrest⟩ := List.cons.inj hrest
        rcases Text.exists_of_append_eq_append_cons hrest with ⟨more, rfl, -⟩ | ⟨more, rfl, hmore⟩
        · simp [isInitializerChar] at hinner
        · cases more with
          | nil => exact absurd (List.cons.inj hmore).1 (by decide)
          | cons e later =>
              obtain ⟨hword, hclose⟩ := h later behind (List.cons.inj hmore).2
              refine ⟨?_, hclose⟩
              simpa using hword.append (c :: (blanks ++ d :: (inner ++ [e])))

/-- The braces in front of the one that is taken for the body are flat. -/
theorem hasFlatBraces_of_initializers? {taken body : Text}
    (h : initializers? layout text = some (taken, body)) : HasFlatBraces layout taken := by
  fun_induction initializers? layout text generalizing taken body with
  | case1 => cases h
  | case2 rest =>
      obtain ⟨rfl, -⟩ := Prod.mk.inj (Option.some.inj h)
      intro before behind hsplit
      simp at hsplit
  | case3 => cases h
  | case4 c rest hc _ _ ih | case6 c rest hc _ _ _ _ _ _ ih =>
      obtain ⟨⟨taken', body'⟩, hrest, heq⟩ := Option.map_eq_some_iff.mp h
      obtain ⟨rfl, -⟩ := Prod.mk.inj heq
      exact (ih hrest).cons hc
  | case5 c rest _ _ group others hgroup parts hparts ih =>
      obtain ⟨taken', body'⟩ := parts
      obtain ⟨rfl, -⟩ := Prod.mk.inj (Option.some.inj h)
      obtain ⟨d, blanks, inner, -, rfl, hd, hblanks, hinner⟩ := braceGroup?_eq_some_iff.mp hgroup
      have hflat := (ih hparts).group hd hblanks hinner
      simpa using hflat

theorem endsInWord_cons {c : Char} (h : EndsInWord (c :: rest)) :
    EndsInWord rest ∨ isWordChar c = true ∧ ∀ d ∈ rest, isLineBlank d = true := by
  obtain ⟨lead, d, blanks, htext, hd, hblanks⟩ := h
  cases lead with
  | nil =>
      obtain ⟨rfl, rfl⟩ := List.cons.inj htext
      exact .inr ⟨hd, hblanks⟩
  | cons e lead' => exact .inl ⟨lead', d, blanks, (List.cons.inj htext).2, hd, hblanks⟩

/-- The brace that is taken for the body is not flat, or no body would come behind it. -/
theorem initializers?_eq_none_of_flat {taken inner others : Text}
    (h : initializers? layout text = some (taken, inner ++ '}' :: others))
    (hword : EndsInWord taken) (hinner : inner.all (isInitializerChar layout) = true) :
    initializers? layout others = none := by
  -- A word that is read by itself although a flat brace follows it.
  have hgroup : ∀ {c : Char} {rest taken' : Text}, isWordChar c = true →
      (∀ d ∈ taken', isLineBlank d = true) →
      initializers? layout rest = some (taken', inner ++ '}' :: others) →
      ∃ group, braceGroup? layout (c :: rest) = some (group, others) := by
    intro c rest taken' hc hblanks hrest
    refine ⟨_, braceGroup?_eq_some_iff.mpr ⟨c, taken', inner, ?_, rfl, hc, hblanks, hinner⟩⟩
    rw [← initializers?_append hrest]
  fun_induction initializers? layout text generalizing taken with
  | case1 => cases h
  | case2 rest =>
      obtain ⟨rfl, -⟩ := Prod.mk.inj (Option.some.inj h)
      obtain ⟨lead, d, blanks, htext, -⟩ := hword
      simp at htext
  | case3 => cases h
  | case4 c rest _ _ hnone ih =>
      obtain ⟨⟨taken', body'⟩, hrest, heq⟩ := Option.map_eq_some_iff.mp h
      obtain ⟨rfl, rfl⟩ := Prod.mk.inj heq
      rcases endsInWord_cons hword with hlater | ⟨hc, hblanks⟩
      · exact ih hrest hlater
      · obtain ⟨group, hsome⟩ := hgroup hc hblanks hrest
        rw [hnone] at hsome
        cases hsome
  | case5 c rest _ _ group behind hread parts hparts ih =>
      obtain ⟨taken', body'⟩ := parts
      obtain ⟨rfl, rfl⟩ := Prod.mk.inj (Option.some.inj h)
      obtain ⟨d, blanks, inner', -, rfl, -⟩ := braceGroup?_eq_some_iff.mp hread
      have hsplit : (d :: (blanks ++ '{' :: (inner' ++ ['}']))) ++ taken' =
          (d :: (blanks ++ '{' :: inner')) ++ '}' :: taken' := by simp
      rw [hsplit] at hword
      exact ih hparts (hword.of_append (by decide))
  | case6 c rest _ _ group behind hread hnone _ ih =>
      obtain ⟨⟨taken', body'⟩, hrest, heq⟩ := Option.map_eq_some_iff.mp h
      obtain ⟨rfl, rfl⟩ := Prod.mk.inj heq
      rcases endsInWord_cons hword with hlater | ⟨hc, hblanks⟩
      · exact ih hrest hlater
      · obtain ⟨group', hsome⟩ := hgroup hc hblanks hrest
        rw [hread] at hsome
        obtain ⟨-, rfl⟩ := Prod.mk.inj (Option.some.inj hsome)
        exact hnone

/-- Flat initializers are read up to the brace of the body. -/
theorem initializers?_of_hasFlatBraces (hflat : HasFlatBraces layout text)
    (hplain : ∀ c ∈ text, c ≠ ';' ∧ layout.isBreak c = false) (hword : ¬EndsInWord text)
    (rest : Text) : initializers? layout (text ++ '{' :: rest) = some (text, rest) := by
  obtain ⟨⟨taken, body⟩, hread⟩ := Option.isSome_iff_exists.mp (isSome_initializers? hplain rest)
  have hsplit : text ++ '{' :: rest = taken ++ '{' :: body := (initializers?_append hread).symm
  rcases Text.exists_of_append_eq_append_cons hsplit with ⟨more, htext, rfl⟩ | ⟨more, rfl, hrest⟩
  · -- An earlier brace is flat, so what is behind it would have been read on.
    obtain ⟨hbefore, inner, others, rfl, hinner⟩ := hflat taken more htext
    rw [List.append_assoc, List.cons_append] at hread
    have hnone := initializers?_eq_none_of_flat hread hbefore hinner
    have hothers : ∀ c ∈ others, c ≠ ';' ∧ layout.isBreak c = false := by
      intro c hmem
      apply hplain
      simp [htext, hmem]
    have hsome := isSome_initializers? hothers rest
    rw [hnone] at hsome
    cases hsome
  · cases more with
    | nil =>
        obtain ⟨-, rfl⟩ := List.cons.inj hrest
        simpa using hread
    | cons d others =>
        obtain ⟨rfl, -⟩ := List.cons.inj hrest
        exact absurd (hasFlatBraces_of_initializers? hread text others rfl).1 hword

end MemberSplit.Signature
