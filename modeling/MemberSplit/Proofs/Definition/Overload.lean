import MemberSplit.Proofs.Definition.ParameterType
import MemberSplit.Proofs.Extraction.Invariant
import MemberSplit.Proofs.Signature.Parts

/-!
# What an overload tells

The key of an overload is a name, parameter types and perhaps `const`, run together. It still tells
them apart: the first parenthesis ends the name, unless the name is that of the call operator, and
then no other name can stand in front of the same key, because no list of types begins by closing a
parenthesis.
-/

namespace MemberSplit.Definition

/-- The types of the parameters as they stand in the key of the overload. -/
def typesText (definition : Definition) : Text :=
  Text.joinWith [','] definition.parameterTypes

/-- What the key of the overload has behind the types. -/
def constMark (definition : Definition) : Text :=
  if definition.isConst then ") const".toList else ")".toList

/-- The name and the parameters have the shapes that a signature gives them. -/
structure IsSpelled (definition : Definition) : Prop where
  name : '(' ∉ definition.name ∨ definition.name = Name.operatorWord ++ "()".toList
  params : ∀ before after, definition.paramList = before ++ ')' :: after → '(' ∈ before

variable {definition first second : Definition}

theorem isSpelled_of_isReadFrom {extractor : Extractor} {source : Text} {signature : Signature}
    (hmem : signature ∈ extractor.pattern.signatures source)
    (h : definition.IsReadFrom extractor source signature) : definition.IsSpelled := by
  have hread := Signature.Pattern.areRead_of_mem_signaturesFrom hmem
  refine ⟨?_, ?_⟩
  · rw [h.name]
    exact hread.withoutBlanks_name
  · intro before after hclosing
    rw [h.paramList] at hclosing
    exact hread.mem_of_params hclosing

theorem overload_eq (definition : Definition) :
    definition.overload = definition.owner ++ "::".toList ++
      (definition.name ++ '(' :: (definition.typesText ++ definition.constMark)) := by
  simp only [overload, qualifiedName, typesText, constMark, List.append_assoc, List.cons_append]

/-- The types of the parameters do not begin by closing a parenthesis. -/
theorem IsSpelled.typesText_ne (h : definition.IsSpelled) (rest : Text) :
    definition.typesText ≠ ')' :: rest := by
  intro htypes
  unfold typesText parameterTypes at htypes
  simp only at htypes
  split at htypes
  · cases htypes
  next =>
    obtain ⟨piece, pieces, hsplit⟩ :=
      Text.exists_cons_of_splitOutsideFrom ',' 0 definition.paramList
    have hjoin := Text.joinWith_splitOutsideFrom ',' 0 definition.paramList
    rw [Text.splitOutside, hsplit, List.map_cons] at htypes
    rw [hsplit] at hjoin
    obtain ⟨behind, hparams, -⟩ := Text.exists_joinWith_cons [','] piece pieces
    obtain ⟨tail, hjoined, htail⟩ :=
      Text.exists_joinWith_cons [','] (ParameterType.ofParam piece)
        (pieces.map ParameterType.ofParam)
    rw [hjoined] at htypes
    cases htype : ParameterType.ofParam piece with
    | nil =>
        rw [htype, List.nil_append] at htypes
        rcases htail with rfl | ⟨others, hcomma⟩
        · cases htypes
        · rw [htypes] at hcomma
          cases hcomma
    | cons c others =>
        -- A first character that is a bracket is the first bracket of the parameters.
        rw [htype] at htypes
        obtain ⟨rfl, -⟩ := List.cons.inj htypes
        have hmarks := ParameterType.filter_ofParam piece
        rw [htype, List.filter_cons_of_pos (by decide)] at hmarks
        obtain ⟨before, after, hfront, hnone, -, -⟩ := List.filter_eq_cons_iff.mp hmarks.symm
        obtain ⟨default, hpiece, -⟩ := ParameterType.exists_front_append piece
        have hopen := h.params before (after ++ default ++ behind) (by
          rw [← hjoin, hparams, hpiece, hfront]
          simp)
        exact hnone '(' hopen (by decide)

theorem constMark_eq_cons (definition : Definition) :
    ∃ rest, definition.constMark = ')' :: rest ∧ rest.head? ≠ some '(' := by
  unfold constMark
  split
  · exact ⟨_, rfl, by decide⟩
  · exact ⟨_, rfl, by decide⟩

/-- No name that ends before the parentheses of the call operator has a key that goes on with
them. -/
theorem IsSpelled.typesText_append_ne (h : definition.IsSpelled) (rest : Text) :
    definition.typesText ++ definition.constMark ≠ ')' :: '(' :: rest := by
  intro hkey
  cases htypes : definition.typesText with
  | nil =>
      obtain ⟨others, hmark, hhead⟩ := constMark_eq_cons definition
      rw [htypes, hmark] at hkey
      obtain ⟨-, rfl⟩ := List.cons.inj hkey
      exact hhead rfl
  | cons c others =>
      rw [htypes] at hkey
      obtain ⟨rfl, -⟩ := List.cons.inj hkey
      exact h.typesText_ne others htypes

theorem IsSpelled.eq_nil_of_name_append (hfirst : first.IsSpelled) (hsecond : second.IsSpelled)
    {between : Text} (hname : second.name = first.name ++ between)
    (hkey : '(' :: (first.typesText ++ first.constMark) =
      between ++ '(' :: (second.typesText ++ second.constMark)) : between = [] := by
  cases between with
  | nil => rfl
  | cons c others =>
      obtain ⟨rfl, hrest⟩ := List.cons.inj hkey
      exfalso
      have hcall : second.name = Name.operatorWord ++ "()".toList := by
        apply hsecond.name.resolve_left
        intro hnot
        exact hnot (by simp [hname])
      -- The name of the call operator has one opening parenthesis: there `between` begins.
      have hsplit : Name.operatorWord ++ '(' :: [')'] = first.name ++ '(' :: others :=
        hcall.symm.trans hname
      obtain ⟨-, -, hothers⟩ :=
        (List.append_cons_inj_of_notMem (by decide) (by decide)).mp hsplit
      rw [← hothers] at hrest
      exact hfirst.typesText_append_ne _ hrest

theorem IsSpelled.name_eq_of_overload_eq (hfirst : first.IsSpelled) (hsecond : second.IsSpelled)
    (howner : first.owner = second.owner) (h : first.overload = second.overload) :
    first.name = second.name := by
  rw [overload_eq, overload_eq, howner] at h
  have hkey := List.append_cancel_left h
  rcases List.append_eq_append_iff.mp hkey with ⟨between, hname, hrest⟩ | ⟨between, hname, hrest⟩
  · rw [hname, hfirst.eq_nil_of_name_append hsecond hname hrest, List.append_nil]
  · rw [hname, hsecond.eq_nil_of_name_append hfirst hname hrest, List.append_nil]

theorem constMark_eq_of_append_eq
    (h : first.typesText ++ first.constMark = second.typesText ++ second.constMark) :
    first.constMark = second.constMark := by
  have hlast := congrArg List.getLast? h
  have hends : ∀ definition : Definition, (definition.typesText ++ definition.constMark).getLast? =
      some (if definition.isConst then 't' else ')') := by
    intro definition
    have hmark : definition.constMark.getLast? =
        some (if definition.isConst then 't' else ')') := by
      unfold constMark
      split <;> rfl
    rw [List.getLast?_append, hmark, Option.some_or]
  rw [hends, hends] at hlast
  have hsame : first.isConst = second.isConst := by
    cases hfirst : first.isConst <;> cases hsecond : second.isConst <;>
      rw [hfirst, hsecond] at hlast
    · exact absurd hlast (by decide)
    · exact absurd hlast (by decide)
  rw [constMark, constMark, hsame]

/-- Two definitions of one owner that are the same overload have one name and one list of types. -/
theorem IsSpelled.typesText_eq_of_overload_eq (hfirst : first.IsSpelled)
    (hsecond : second.IsSpelled) (howner : first.owner = second.owner)
    (h : first.overload = second.overload) : first.typesText = second.typesText := by
  have hname := hfirst.name_eq_of_overload_eq hsecond howner h
  rw [overload_eq, overload_eq, howner, hname] at h
  have hkey := (List.cons.inj (List.append_cancel_left (List.append_cancel_left h))).2
  rw [constMark_eq_of_append_eq hkey] at hkey
  exact List.append_cancel_right hkey

end MemberSplit.Definition
