import MemberSplit.Text.Boundary

/-!
# Pieces of a signature

How a signature may lie on its lines, and the pieces that stand between the name of a member and
the brace of its body: the parameters, the qualifiers, and the initializers of a constructor. Each
piece is split off the start of a text; what is split off and what remains make up the text.
-/

namespace MemberSplit.Signature

/-- Whether a signature may wrap over lines. -/
inductive Layout where
  /-- All pieces and the brace stand on one line. -/
  | oneLine
  /-- The pieces may be separated by newlines. -/
  | wrapped
  deriving DecidableEq, Repr

/-- A space or a tab. -/
def isLineBlank (c : Char) : Bool :=
  c == ' ' || c == '\t'

namespace Layout

/-- Whether the character may stand between two pieces. -/
def isGap : Layout → Char → Bool
  | .oneLine, c => isLineBlank c
  | .wrapped, c => isBlank c

/-- Whether the character cannot be part of any piece. -/
def isBreak : Layout → Char → Bool
  | .oneLine, c => c == '\n'
  | .wrapped, _ => false

end Layout

/-- Splits a text before the parenthesis that closes the parameters, where `nested` says whether
an inner pair is open before the text. Parentheses nest once at most. -/
def params? (layout : Layout) : (nested : Bool) → Text → Option (Text × Text)
  | _, [] => none
  | nested, c :: rest =>
    let further (nested : Bool) :=
      (params? layout nested rest).map (Text.extend [c])
    if c = ')' then
      if nested then further false else some ([], rest)
    else if c = '(' then
      if nested then none else further true
    else if layout.isBreak c then none
    else further nested

/-- One qualifier behind the parameters, with the gap before it. -/
structure Qualifier where
  gap : Text
  word : Text
  deriving DecidableEq, Repr

/-- The characters of a qualifier and of the gap before it. -/
def Qualifier.text (qualifier : Qualifier) : Text :=
  qualifier.gap ++ qualifier.word

/-- The qualifiers, in the order in which they are tried. -/
def qualifierWords : List Text :=
  ["const", "volatile", "noexcept", "override", "final", "&&", "&"].map String.toList

/-- What follows a qualifier at the start of a text; letters end where the word ends. -/
def afterQualifier? (text word : Text) : Option Text :=
  (text.dropLead? word).filter fun rest =>
    !(Text.inWord word.getLast? && Text.inWord rest.head?)

/-- Splits a text after the qualifier that it starts with. -/
def qualifier? (layout : Layout) (text : Text) : Option (Qualifier × Text) :=
  qualifierWords.findSome? fun word =>
    (afterQualifier? (text.dropWhile layout.isGap) word).map fun rest =>
      (⟨text.takeWhile layout.isGap, word⟩, rest)

theorem qualifier?_append {layout : Layout} {text rest : Text} {qualifier : Qualifier}
    (h : qualifier? layout text = some (qualifier, rest)) :
    qualifier.text ++ rest = text ∧ qualifier.word ∈ qualifierWords := by
  obtain ⟨word, hmem, hword⟩ := List.exists_of_findSome?_eq_some h
  simp only [Option.map_eq_some_iff, Prod.mk.injEq] at hword
  obtain ⟨rest', hrest, rfl, rfl⟩ := hword
  obtain ⟨hlead, -⟩ := Option.filter_eq_some_iff.mp hrest
  refine ⟨?_, hmem⟩
  rw [Qualifier.text, List.append_assoc, Text.dropLead?_eq_some_iff.mp hlead,
    List.takeWhile_append_dropWhile]

theorem qualifierWords_ne_nil {word : Text} (h : word ∈ qualifierWords) : word ≠ [] := by
  rintro rfl
  revert h
  decide

theorem length_lt_of_qualifier? {layout : Layout} {text rest : Text} {qualifier : Qualifier}
    (h : qualifier? layout text = some (qualifier, rest)) : rest.length < text.length := by
  obtain ⟨htext, hmem⟩ := qualifier?_append h
  have hpos := List.length_pos_iff.mpr (qualifierWords_ne_nil hmem)
  rw [← htext, Qualifier.text]
  simp only [List.length_append]
  omega

/-- Splits a text after all qualifiers that it starts with. -/
def qualifiers (layout : Layout) (text : Text) : List Qualifier × Text :=
  match _h : qualifier? layout text with
  | none => ([], text)
  | some (qualifier, rest) =>
    let (others, remaining) := qualifiers layout rest
    (qualifier :: others, remaining)
termination_by text.length
decreasing_by exact length_lt_of_qualifier? _h

/-- The characters of a list of qualifiers. -/
def qualifiersText (list : List Qualifier) : Text :=
  list.flatMap Qualifier.text

theorem qualifiers_append (layout : Layout) (text : Text) :
    qualifiersText (qualifiers layout text).1 ++ (qualifiers layout text).2 = text := by
  fun_induction qualifiers layout text with
  | case1 text h => simp [qualifiersText]
  | case2 text qualifier rest h ih =>
    simp_all only [qualifiersText, List.flatMap_cons, List.append_assoc]
    exact (qualifier?_append h).1

/-- Splits a text after an initializer in braces such as the end of `x_{1}`: a word character,
spaces and tabs, and braces that hold neither braces nor a semicolon. -/
def braceGroup? (layout : Layout) (text : Text) : Option (Text × Text) :=
  let isInner (c : Char) := !(c == '{' || c == '}' || c == ';' || layout.isBreak c)
  match text with
  | [] => none
  | c :: rest =>
    if !isWordChar c then none
    else match rest.dropWhile isLineBlank with
      | '{' :: inner =>
        match inner.dropWhile isInner with
        | '}' :: others =>
          some (c :: rest.takeWhile isLineBlank ++ '{' :: inner.takeWhile isInner ++ ['}'], others)
        | _ => none
      | _ => none

theorem braceGroup?_append {layout : Layout} {text group others : Text}
    (h : braceGroup? layout text = some (group, others)) : group ++ others = text := by
  unfold braceGroup? at h
  split at h
  · simp at h
  next c rest =>
    simp only at h
    split at h
    · simp at h
    split at h
    next inner hinner =>
      split at h
      next others' hothers =>
        simp only [Option.some.injEq, Prod.mk.injEq] at h
        obtain ⟨rfl, rfl⟩ := h
        simp only [List.append_assoc, List.cons_append, List.nil_append]
        rw [← hothers, List.takeWhile_append_dropWhile, ← hinner,
          List.takeWhile_append_dropWhile]
      next => simp at h
    next => simp at h

theorem length_lt_of_braceGroup? {layout : Layout} {text group others : Text}
    (h : braceGroup? layout text = some (group, others)) : others.length < text.length := by
  have htext := braceGroup?_append h
  have hgroup : group ≠ [] := by
    rintro rfl
    unfold braceGroup? at h
    simp only at h
    repeat' split at h
    all_goals simp at h
  have := List.length_pos_iff.mpr hgroup
  rw [← htext, List.length_append]
  omega

/-- Splits a text at the brace that ends the initializers and opens the body: the text before it
and the text after it. The braces of an initializer open the body only if no later brace does. -/
def initializers? (layout : Layout) (text : Text) : Option (Text × Text) :=
  match text with
  | [] => none
  | c :: rest =>
    if c = '{' then some ([], rest)
    else if c = ';' || layout.isBreak c then none
    else
      match _h : braceGroup? layout (c :: rest) with
      | none => (initializers? layout rest).map (Text.extend [c])
      | some (group, others) =>
        match initializers? layout others with
        | some parts => some (Text.extend group parts)
        | none => (initializers? layout rest).map (Text.extend [c])
termination_by text.length
decreasing_by
  · simp
  · exact length_lt_of_braceGroup? _h
  · simp

theorem initializers?_append {layout : Layout} {text taken body : Text}
    (h : initializers? layout text = some (taken, body)) : taken ++ '{' :: body = text := by
  fun_induction initializers? layout text generalizing taken body with
  | case1 => simp at h
  | case2 rest => simp_all
  | case3 => simp at h
  | case4 c rest _ _ _ ih | case6 c rest _ _ _ _ _ _ _ ih =>
    obtain ⟨⟨taken', body'⟩, hrest, heq⟩ := Option.map_eq_some_iff.mp h
    simp only [Text.extend_mk, Prod.mk.injEq] at heq
    obtain ⟨rfl, rfl⟩ := heq
    simp [ih hrest]
  | case5 c rest _ _ group others hgroup parts hparts ih =>
    obtain ⟨taken', body'⟩ := parts
    simp only [Text.extend_mk, Option.some.injEq, Prod.mk.injEq] at h
    obtain ⟨rfl, rfl⟩ := h
    rw [List.append_assoc, ih hparts, braceGroup?_append hgroup]

/-- Splits a text at the brace that opens the body, after a gap or a colon and initializers. -/
def beforeBody? (layout : Layout) (text : Text) : Option (Text × Text) :=
  let gap := text.takeWhile layout.isGap
  match text.dropWhile layout.isGap with
  | '{' :: body => some (gap, body)
  | ':' :: rest =>
    (initializers? layout rest).map (Text.extend (gap ++ [':']))
  | _ => none

theorem beforeBody?_append {layout : Layout} {text taken body : Text}
    (h : beforeBody? layout text = some (taken, body)) : taken ++ '{' :: body = text := by
  unfold beforeBody? at h
  simp only at h
  split at h
  next body' hbody =>
    simp only [Option.some.injEq, Prod.mk.injEq] at h
    obtain ⟨rfl, rfl⟩ := h
    rw [← hbody, List.takeWhile_append_dropWhile]
  next rest hrest =>
    simp only [Option.map_eq_some_iff, Prod.exists, Text.extend_mk, Prod.mk.injEq] at h
    obtain ⟨taken', body', h, rfl, rfl⟩ := h
    rw [List.append_assoc, initializers?_append h, List.append_assoc, List.singleton_append,
      ← hrest, List.takeWhile_append_dropWhile]
  next => simp at h

theorem params?_append {layout : Layout} {nested : Bool} {text params rest : Text}
    (h : params? layout nested text = some (params, rest)) : params ++ ')' :: rest = text := by
  induction text generalizing nested params rest with
  | nil => simp [params?] at h
  | cons c others ih =>
    simp only [params?] at h
    repeat' split at h
    all_goals
      simp only [Option.map_eq_some_iff, Prod.exists, Text.extend_mk, Prod.mk.injEq,
        Option.some.injEq, reduceCtorEq] at h
    case isTrue.isTrue | isFalse.isTrue.isFalse | isFalse.isFalse.isFalse =>
      obtain ⟨params', rest', hrest, rfl, rfl⟩ := h
      simp [ih hrest]
    case isTrue.isFalse =>
      obtain ⟨rfl, rfl⟩ := h
      simp_all

end MemberSplit.Signature
