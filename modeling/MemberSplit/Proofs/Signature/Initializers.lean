import MemberSplit.Proofs.Signature.Grammar
import MemberSplit.Proofs.Text.Brackets

/-!
# Initializers that are read back

The initializers of a constructor name members, with their arguments in parentheses or in braces.
The brace of the body is the first one that does not stand right behind a member: in front of it
comes a closing bracket, a comma or white space.
-/

namespace MemberSplit.Signature

variable {layout : Layout} {run rest : Text}

/-- One item behind the colon of a constructor, with the gaps around it. -/
structure Initializer where
  before : Text
  member : Text
  /-- Whether the arguments stand in braces, or else in parentheses. -/
  isBraced : Bool
  args : Text
  after : Text
  deriving DecidableEq, Repr

namespace Initializer

/-- The arguments with what encloses them. -/
def group (initializer : Initializer) : Text :=
  if initializer.isBraced then '{' :: initializer.args ++ ['}']
  else '(' :: initializer.args ++ [')']

/-- The characters of an initializer. -/
def text (initializer : Initializer) : Text :=
  initializer.before ++ initializer.member ++ initializer.group ++ initializer.after

end Initializer

/-- A character of initializers that neither opens a body nor rules one out. -/
def isInitializerChar (layout : Layout) (c : Char) : Bool :=
  c != '{' && c != '}' && c != ';' && !layout.isBreak c

/-- A member is named, and its arguments hold neither braces nor a semicolon. -/
structure Initializer.IsWritten (layout : Layout) (initializer : Initializer) : Prop where
  before : initializer.before.all layout.isGap = true
  member : Name.isIdentifier initializer.member = true
  args : initializer.args.all (isInitializerChar layout) = true
  after : initializer.after.all layout.isGap = true

theorem initializers?_cons {c : Char} (hc : isInitializerChar layout c = true)
    (hgroup : braceGroup? layout (c :: rest) = none) :
    initializers? layout (c :: rest) = (initializers? layout rest).map (Text.extend [c]) := by
  have hplain : c ≠ '{' ∧ ¬(c = ';' || layout.isBreak c) = true := by
    simp only [isInitializerChar, Bool.and_eq_true, bne_iff_ne, Bool.not_eq_true'] at hc
    simp [hc]
  rw [initializers?, if_neg hplain.1, if_neg hplain.2]
  split
  next => rfl
  next _ _ hsome =>
    rw [hgroup] at hsome
    cases hsome

theorem braceGroup?_of_not_isWordChar {c : Char} (hc : isWordChar c = false) :
    braceGroup? layout (c :: rest) = none := by
  simp [braceGroup?, hc]

theorem braceGroup?_of_head? {c : Char}
    (h : (rest.dropWhile isLineBlank).head? ≠ some '{') :
    braceGroup? layout (c :: rest) = none := by
  unfold braceGroup?
  simp only
  split
  · rfl
  · split
    next inner hinner => exact absurd (by rw [hinner]; rfl) h
    next => rfl

variable {taken body : Text}

/-- A character of no word is passed over. -/
theorem initializers?_cons_of_not_word {c : Char}
    (hc : isInitializerChar layout c = true ∧ isWordChar c = false)
    (h : initializers? layout rest = some (taken, body)) :
    initializers? layout (c :: rest) = some (c :: taken, body) := by
  rw [initializers?_cons hc.1 (braceGroup?_of_not_isWordChar hc.2), h]
  rfl

theorem initializers?_append_of_not_word
    (hrun : ∀ c ∈ run, isInitializerChar layout c = true ∧ isWordChar c = false)
    (h : initializers? layout rest = some (taken, body)) :
    initializers? layout (run ++ rest) = some (run ++ taken, body) := by
  induction run with
  | nil => exact h
  | cons c others ih =>
      have hothers := ih fun d hd => hrun d (List.mem_cons_of_mem _ hd)
      exact initializers?_cons_of_not_word (hrun c List.mem_cons_self) hothers

/-- A run is passed over if it is not followed by a brace. -/
theorem initializers?_append_of_head {d : Char}
    (hrun : run.all (isInitializerChar layout) = true) (hd : d ≠ '{' ∧ isLineBlank d = false)
    (h : initializers? layout (d :: rest) = some (taken, body)) :
    initializers? layout (run ++ d :: rest) = some (run ++ taken, body) := by
  induction run with
  | nil => exact h
  | cons c others ih =>
      obtain ⟨hc, hothers⟩ := Bool.and_eq_true_iff.mp hrun
      have hgroup : braceGroup? layout (c :: (others ++ d :: rest)) = none := by
        apply braceGroup?_of_head?
        intro hhead
        rw [List.dropWhile_append] at hhead
        split at hhead
        next =>
          have hd' : ¬isLineBlank d = true := by simp [hd.2]
          rw [List.dropWhile_cons_of_neg hd'] at hhead
          exact hd.1 (Option.some.inj hhead)
        next hne =>
          rw [List.head?_append_of_ne_nil _ (by simpa using hne)] at hhead
          have hmem := (List.dropWhile_sublist isLineBlank).subset (List.mem_of_head? hhead)
          exact absurd (List.all_eq_true.mp hothers '{' hmem) (by simp [isInitializerChar])
      rw [List.cons_append, initializers?_cons hc hgroup, ih hothers]
      rfl

theorem braceGroup?_braced {c : Char} {args : Text} (hc : isWordChar c = true)
    (hargs : args.all (isInitializerChar layout) = true) (rest : Text) :
    braceGroup? layout (c :: '{' :: (args ++ '}' :: rest)) =
      some (c :: '{' :: (args ++ ['}']), rest) := by
  have hinner : (fun d : Char => !(d == '{' || d == '}' || d == ';' || layout.isBreak d)) =
      isInitializerChar layout := by
    funext d
    simp [isInitializerChar, bne]
  have hstop : ('}' :: rest).head?.any (isInitializerChar layout) = false := by
    simp [isInitializerChar]
  have hnot : ¬isLineBlank '{' = true := by decide
  unfold braceGroup?
  simp only [hc, Bool.not_true, Bool.false_eq_true, if_false, List.dropWhile_cons_of_neg hnot,
    List.takeWhile_cons_of_neg hnot, hinner]
  rw [Text.dropWhile_run (List.all_eq_true.mp hargs) hstop,
    Text.takeWhile_run (List.all_eq_true.mp hargs) hstop]
  rfl

/-- Arguments in braces are read with the word in front of them, if a body follows. -/
theorem initializers?_braced {c : Char} {args : Text} (hc : isWordChar c = true)
    (hplain : isInitializerChar layout c = true)
    (hargs : args.all (isInitializerChar layout) = true)
    (h : initializers? layout rest = some (taken, body)) :
    initializers? layout (c :: '{' :: (args ++ '}' :: rest)) =
      some (c :: '{' :: (args ++ '}' :: taken), body) := by
  have hnot : c ≠ '{' ∧ ¬(c = ';' || layout.isBreak c) = true := by
    simp only [isInitializerChar, Bool.and_eq_true, bne_iff_ne, Bool.not_eq_true'] at hplain
    simp [hplain]
  rw [initializers?, if_neg hnot.1, if_neg hnot.2]
  split
  next hnone =>
    rw [braceGroup?_braced hc hargs] at hnone
    cases hnone
  next group others hsome =>
    rw [braceGroup?_braced hc hargs] at hsome
    obtain ⟨rfl, rfl⟩ := Prod.mk.inj (Option.some.inj hsome)
    rw [h]
    simp

/-- A gap holds no character of a word, and none that ends the initializers. -/
theorem isInitializerChar_of_isGap {c : Char} (h : layout.isGap c = true) :
    isInitializerChar layout c = true ∧ isWordChar c = false := by
  refine ⟨?_, Layout.isWordChar_of_isGap h⟩
  have hbreak : layout.isBreak c = false := by
    cases layout with
    | wrapped => rfl
    | oneLine => rcases eq_of_isLineBlank h with rfl | rfl <;> decide
  have hblank := Layout.isBlank_of_isGap h
  have hne : c ≠ '{' ∧ c ≠ '}' ∧ c ≠ ';' := by
    refine ⟨?_, ?_, ?_⟩ <;> rintro rfl <;> exact absurd hblank (by decide)
  simp [isInitializerChar, hbreak, hne]

theorem isInitializerChar_of_isWordChar {c : Char} (h : isWordChar c = true) :
    isInitializerChar layout c = true := by
  have hne : c ≠ '{' ∧ c ≠ '}' ∧ c ≠ ';' ∧ c ≠ '\n' := by
    refine ⟨?_, ?_, ?_, ?_⟩ <;> rintro rfl <;> exact absurd h (by decide)
  cases layout <;> simp [isInitializerChar, Layout.isBreak, hne]

theorem Initializer.IsWritten.initializers?_member {initializer : Initializer}
    (hwritten : initializer.IsWritten layout) (h : initializers? layout rest = some (taken, body)) :
    initializers? layout (initializer.member ++ (initializer.group ++ rest)) =
      some (initializer.member ++ (initializer.group ++ taken), body) := by
  have hword := Name.isWordChar_of_isIdentifier hwritten.member
  have hplain : initializer.member.all (isInitializerChar layout) = true :=
    List.all_eq_true.mpr fun c hc => isInitializerChar_of_isWordChar (hword c hc)
  unfold group
  cases initializer.isBraced with
  | true =>
      -- The last character of the member is read with the braces.
      obtain ⟨front, c, hmember⟩ : ∃ front c, initializer.member = front ++ [c] := by
        refine ⟨_, _, (List.dropLast_concat_getLast ?_).symm⟩
        intro hnil
        have hidentifier := hwritten.member
        rw [hnil] at hidentifier
        cases hidentifier
      rw [hmember] at hword hplain ⊢
      have hc : isWordChar c = true := hword c (by simp)
      have hfront : front.all (isInitializerChar layout) = true := by
        rw [List.all_append, Bool.and_eq_true] at hplain
        exact hplain.1
      have hends : c ≠ '{' ∧ isLineBlank c = false := by
        refine ⟨?_, ?_⟩
        · rintro rfl
          exact absurd hc (by decide)
        · cases hblank : isLineBlank c with
          | false => rfl
          | true =>
              rw [isWordChar_of_isBlank (isBlank_of_isLineBlank hblank)] at hc
              cases hc
      have hgroup := initializers?_braced hc (isInitializerChar_of_isWordChar hc) hwritten.args h
      have hrun := initializers?_append_of_head hfront hends hgroup
      simpa using hrun
  | false =>
      have hclose : initializers? layout (')' :: rest) = some (')' :: taken, body) :=
        initializers?_cons_of_not_word (by cases layout <;> decide) h
      have hall : (initializer.member ++ '(' :: initializer.args).all
          (isInitializerChar layout) = true := by
        have hopen : isInitializerChar layout '(' = true := by cases layout <;> decide
        rw [List.all_append, List.all_cons, hplain, hopen, hwritten.args]
        rfl
      have hrun := initializers?_append_of_head hall ⟨by decide, by decide⟩ hclose
      simpa using hrun

/-- An initializer is passed over if a body follows the rest of the text. -/
theorem Initializer.IsWritten.initializers?_append {initializer : Initializer}
    (hwritten : initializer.IsWritten layout) (h : initializers? layout rest = some (taken, body)) :
    initializers? layout (initializer.text ++ rest) = some (initializer.text ++ taken, body) := by
  have hgap : ∀ {gap : Text}, gap.all layout.isGap = true →
      ∀ c ∈ gap, isInitializerChar layout c = true ∧ isWordChar c = false :=
    fun hall c hc => isInitializerChar_of_isGap (List.all_eq_true.mp hall c hc)
  have hafter := initializers?_append_of_not_word (hgap hwritten.after) h
  have hmember := hwritten.initializers?_member hafter
  have hbefore := initializers?_append_of_not_word (hgap hwritten.before) hmember
  simpa [Initializer.text] using hbefore

/-- A list of initializers is read up to the brace of the body. -/
theorem initializers?_joinWith {list : List Initializer}
    (hwritten : ∀ initializer ∈ list, initializer.IsWritten layout) (body : Text) :
    initializers? layout (Text.joinWith [','] (list.map Initializer.text) ++ '{' :: body) =
      some (Text.joinWith [','] (list.map Initializer.text), body) := by
  have hend : initializers? layout ('{' :: body) = some ([], body) := by
    rw [initializers?, if_pos rfl]
  induction list with
  | nil => exact hend
  | cons initializer rest ih =>
      have hfirst := hwritten initializer List.mem_cons_self
      cases rest with
      | nil =>
          have hread := hfirst.initializers?_append hend
          simpa [Text.joinWith] using hread
      | cons next others =>
          have hothers := ih fun other hmem => hwritten other (List.mem_cons_of_mem _ hmem)
          have hcomma : isInitializerChar layout ',' = true ∧ isWordChar ',' = false := by
            cases layout <;> decide
          have hread := hfirst.initializers?_append
            (initializers?_cons_of_not_word hcomma hothers)
          have hjoin : Text.joinWith [','] ((initializer :: next :: others).map Initializer.text) =
              initializer.text ++
                ([','] ++ Text.joinWith [','] ((next :: others).map Initializer.text)) := by
            rw [List.map_cons, List.map_cons, Text.joinWith_cons_cons, List.append_assoc]
          rw [hjoin, List.append_assoc, List.append_assoc]
          exact hread

/-- What stands between the qualifiers and the body: a gap, or a colon and initializers. -/
inductive IsClosing (layout : Layout) : Text → Prop
  | gap {gap : Text} : gap.all layout.isGap = true → IsClosing layout gap
  | initializers {gap : Text} {list : List Initializer} : gap.all layout.isGap = true →
      (∀ initializer ∈ list, initializer.IsWritten layout) →
      IsClosing layout (gap ++ ':' :: Text.joinWith [','] (list.map Initializer.text))

theorem IsClosing.beforeBody? {closing : Text} (h : IsClosing layout closing) (body : Text) :
    beforeBody? layout (closing ++ '{' :: body) = some (closing, body) := by
  cases h with
  | gap hgap =>
      have hstop : ('{' :: body).head?.any layout.isGap = false := Layout.isGap_eq_false (by decide)
      rw [Signature.beforeBody?, Text.takeWhile_run (List.all_eq_true.mp hgap) hstop,
        Text.dropWhile_run (List.all_eq_true.mp hgap) hstop]
      rfl
  | @initializers gap list hgap hlist =>
      have hstop : (':' :: (Text.joinWith [','] (list.map Initializer.text) ++
          '{' :: body)).head?.any layout.isGap = false := Layout.isGap_eq_false (by decide)
      rw [List.append_assoc, List.cons_append, Signature.beforeBody?,
        Text.takeWhile_run (List.all_eq_true.mp hgap) hstop,
        Text.dropWhile_run (List.all_eq_true.mp hgap) hstop]
      simp only [initializers?_joinWith hlist, Option.map_some, Text.extend_mk]
      simp

/-- Behind the qualifiers comes something that is not part of one. -/
theorem IsClosing.endsQualifier {closing : Text} (h : IsClosing layout closing) (body : Text) :
    endsQualifier (closing ++ '{' :: body) = true ∧
      qualifier? layout (closing ++ '{' :: body) = none := by
  have hbrace : isWordChar '{' = false ∧ '{' ≠ '&' := by decide
  have hcolon : isWordChar ':' = false ∧ ':' ≠ '&' := by decide
  cases h with
  | gap hgap =>
      exact ⟨endsQualifier_gap hgap hbrace body,
        qualifier?_eq_none hgap hbrace (Layout.isGap_eq_false (by decide)) body⟩
  | initializers hgap hlist =>
      rw [List.append_assoc, List.cons_append]
      exact ⟨endsQualifier_gap hgap hcolon _,
        qualifier?_eq_none hgap hcolon (Layout.isGap_eq_false (by decide)) _⟩

end MemberSplit.Signature
