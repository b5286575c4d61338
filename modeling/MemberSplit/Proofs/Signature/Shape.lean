import MemberSplit.Proofs.Header.Callable
import MemberSplit.Proofs.Signature.Constness
import MemberSplit.Proofs.Signature.Front

/-!
# The shape of what is found

Whatever a text holds, the search reads nothing but signatures: each one that it finds begins a
line, ends at a brace, and between the two stand a return type, the owner, a name and parameters,
all made of the characters that they may be made of. No signature reaches into another one.
-/

namespace MemberSplit.Signature

variable {layout : Layout} {text rest params : Text} {c : Char}

namespace Layout

theorem isBreak_eq_false (h : c ≠ '\n') : layout.isBreak c = false := by
  cases layout with
  | oneLine => exact beq_eq_false_iff_ne.mpr h
  | wrapped => rfl

theorem isBreak_of_isGap (h : layout.isGap c = true) : layout.isBreak c = false := by
  cases layout with
  | oneLine =>
      apply isBreak_eq_false
      rintro rfl
      exact absurd h (by decide)
  | wrapped => rfl

theorem isBreak_of_isBlank (h : isBlank c = false) : layout.isBreak c = false := by
  apply isBreak_eq_false
  rintro rfl
  exact absurd h (by decide)

theorem isBreak_of_isWordChar (h : isWordChar c = true) : layout.isBreak c = false := by
  apply isBreak_of_isBlank
  rw [Bool.eq_false_iff]
  intro hblank
  rw [isWordChar_of_isBlank hblank] at h
  cases h

end Layout

/-- None of the characters is one that no piece of a signature holds. -/
def IsUnbroken (layout : Layout) (text : Text) : Prop :=
  ∀ c ∈ text, layout.isBreak c = false

namespace IsUnbroken

theorem nil : IsUnbroken layout [] := by
  intro c hmem
  cases hmem

theorem cons (hc : layout.isBreak c = false) (h : IsUnbroken layout text) :
    IsUnbroken layout (c :: text) :=
  List.forall_mem_cons.mpr ⟨hc, h⟩

theorem append (hfirst : IsUnbroken layout text) (hrest : IsUnbroken layout rest) :
    IsUnbroken layout (text ++ rest) :=
  List.forall_mem_append.mpr ⟨hfirst, hrest⟩

theorem of_isGap (h : ∀ c ∈ text, layout.isGap c = true) : IsUnbroken layout text :=
  fun c hmem => Layout.isBreak_of_isGap (h c hmem)

end IsUnbroken

section Params

theorem NestsOnce.cons (hc : isParamChar layout c = true) (h : NestsOnce layout params) :
    NestsOnce layout (c :: params) := by
  cases h with
  | run hrun => exact .run (by rw [List.all_cons, hc, hrun]; rfl)
  | @pair run inner rest hrun hinner hrest =>
      have hlonger : (c :: run).all (isParamChar layout) = true := by
        rw [List.all_cons, hc, hrun]
        rfl
      exact .pair hlonger hinner hrest

theorem NestsOnce.isUnbroken (h : NestsOnce layout params) : IsUnbroken layout params := by
  have hrun : ∀ {run : Text}, run.all (isParamChar layout) = true → IsUnbroken layout run := by
    intro run hrun c hmem
    have hc := List.all_eq_true.mp hrun c hmem
    simp only [isParamChar, Bool.and_eq_true, Bool.not_eq_true'] at hc
    exact hc.2
  induction h with
  | run h => exact hrun h
  | pair hfirst hinner _ ih =>
      exact ((hrun hfirst).append (.cons (Layout.isBreak_of_isBlank rfl) (hrun hinner))).append
        (.cons (Layout.isBreak_of_isBlank rfl) ih)

/-- What a parameter list is from a place on; inside an inner pair, this pair is closed first. -/
def NestsFrom (layout : Layout) : (nested : Bool) → Text → Prop
  | false, params => NestsOnce layout params
  | true, params => ∃ inner others, params = inner ++ ')' :: others ∧
      inner.all (isParamChar layout) = true ∧ NestsOnce layout others

theorem nestsFrom_of_params? {nested : Bool}
    (h : params? layout nested text = some (params, rest)) : NestsFrom layout nested params := by
  induction text generalizing nested params with
  | nil => cases h
  | cons c others ih =>
      simp only [params?] at h
      split at h
      next hclose =>
        cases nested with
        | false =>
            obtain ⟨rfl, -⟩ := Prod.mk.inj (Option.some.inj h)
            exact .run rfl
        | true =>
            obtain ⟨⟨params', rest'⟩, hothers, heq⟩ := Option.map_eq_some_iff.mp h
            obtain ⟨rfl, rfl⟩ := Prod.mk.inj heq
            exact ⟨[], params', by rw [hclose]; rfl, rfl, ih hothers⟩
      next hclose =>
        split at h
        next hopen =>
          cases nested with
          | true => cases h
          | false =>
              obtain ⟨⟨params', rest'⟩, hothers, heq⟩ := Option.map_eq_some_iff.mp h
              obtain ⟨rfl, rfl⟩ := Prod.mk.inj heq
              obtain ⟨inner, tail, rfl, hinner, htail⟩ := ih hothers
              have hempty : List.all [] (isParamChar layout) = true := rfl
              rw [hopen]
              exact .pair hempty hinner htail
        next hopen =>
          obtain ⟨hbreak, hmap⟩ := Option.ite_none_left_eq_some.mp h
          obtain ⟨⟨params', rest'⟩, hothers, heq⟩ := Option.map_eq_some_iff.mp hmap
          obtain ⟨rfl, rfl⟩ := Prod.mk.inj heq
          have hc : isParamChar layout c = true := by
            simpa [isParamChar, hopen, hclose] using hbreak
          cases nested with
          | false => exact (ih hothers).cons hc
          | true =>
              obtain ⟨inner, tail, rfl, hinner, htail⟩ := ih hothers
              exact ⟨c :: inner, tail, rfl, by rw [List.all_cons, hc, hinner]; rfl, htail⟩

/-- Parentheses nest once at most in the parameters that are read. -/
theorem nestsOnce_of_params? (h : params? layout false text = some (params, rest)) :
    NestsOnce layout params :=
  nestsFrom_of_params? h

end Params

section Closing

theorem isUnbroken_of_braceGroup? {group : Text}
    (h : braceGroup? layout text = some (group, rest)) : IsUnbroken layout group := by
  unfold braceGroup? at h
  split at h
  next => cases h
  next c others =>
    dsimp only at h
    split at h
    next => cases h
    next hc =>
      have hword : isWordChar c = true := by simpa using hc
      split at h
      next inner _ =>
        split at h
        next =>
          obtain ⟨rfl, -⟩ := Prod.mk.inj (Option.some.inj h)
          have hblanks : IsUnbroken layout (others.takeWhile isLineBlank) := .of_isGap fun _ hmem =>
            Layout.isGap_of_isLineBlank (List.mem_takeWhile_imp hmem)
          have hinner : IsUnbroken layout (inner.takeWhile fun c =>
              !(c == '{' || c == '}' || c == ';' || layout.isBreak c)) := by
            intro d hmem
            have hd := List.mem_takeWhile_imp hmem
            simp only [Bool.not_eq_true', Bool.or_eq_false_iff] at hd
            exact hd.2
          exact ((IsUnbroken.cons (Layout.isBreak_of_isWordChar hword) hblanks).append
            (.cons (Layout.isBreak_of_isBlank rfl) hinner)).append
              (.cons (Layout.isBreak_of_isBlank rfl) .nil)
        next => cases h
      next => cases h

theorem isUnbroken_of_initializers? {taken : Text}
    (h : initializers? layout text = some (taken, rest)) : IsUnbroken layout taken := by
  fun_induction initializers? layout text generalizing taken with
  | case1 => cases h
  | case2 others =>
      obtain ⟨rfl, -⟩ := Prod.mk.inj (Option.some.inj h)
      exact .nil
  | case3 => cases h
  | case4 c others _ hbreak _ ih | case6 c others _ hbreak _ _ _ _ _ ih =>
      obtain ⟨⟨taken', rest'⟩, hothers, heq⟩ := Option.map_eq_some_iff.mp h
      obtain ⟨rfl, rfl⟩ := Prod.mk.inj heq
      have hc : layout.isBreak c = false := by
        rw [Bool.not_eq_true, Bool.or_eq_false_iff] at hbreak
        exact hbreak.2
      exact .cons hc (ih hothers)
  | case5 c others _ _ group behind hgroup parts hparts ih =>
      obtain ⟨taken', rest'⟩ := parts
      obtain ⟨rfl, rfl⟩ := Prod.mk.inj (Option.some.inj h)
      exact (isUnbroken_of_braceGroup? hgroup).append (ih hparts)

/-- What stands in front of the body is a gap, or a gap, a colon and initializers. -/
theorem exists_of_beforeBody? {taken : Text} (h : beforeBody? layout text = some (taken, rest)) :
    ∃ gap, (∀ c ∈ gap, layout.isGap c = true) ∧ (taken = gap ∨
      ∃ initializers, taken = gap ++ ':' :: initializers ∧ IsUnbroken layout initializers) := by
  refine ⟨text.takeWhile layout.isGap, fun _ => List.mem_takeWhile_imp, ?_⟩
  unfold beforeBody? at h
  dsimp only at h
  split at h
  next =>
    obtain ⟨rfl, -⟩ := Prod.mk.inj (Option.some.inj h)
    exact .inl rfl
  next =>
    obtain ⟨⟨taken', rest'⟩, hothers, heq⟩ := Option.map_eq_some_iff.mp h
    obtain ⟨rfl, -⟩ := Prod.mk.inj heq
    exact .inr ⟨taken', List.append_assoc .., isUnbroken_of_initializers? hothers⟩
  next => cases h

theorem isUnbroken_of_beforeBody? {taken : Text}
    (h : beforeBody? layout text = some (taken, rest)) : IsUnbroken layout taken := by
  obtain ⟨gap, hgap, rfl | ⟨initializers, rfl, hinitializers⟩⟩ := exists_of_beforeBody? h
  · exact .of_isGap hgap
  · exact (IsUnbroken.of_isGap hgap).append
      (.cons (Layout.isBreak_of_isBlank rfl) hinitializers)

theorem isUnbroken_qualifiersText {list : List Qualifier} (h : AreInRow layout list) :
    IsUnbroken layout (qualifiersText list) := by
  intro c hmem
  obtain ⟨qualifier, hqualifier, hc⟩ := List.mem_flatMap.mp hmem
  rcases List.mem_append.mp hc with hgap | hword
  · exact Layout.isBreak_of_isGap (h.gaps qualifier hqualifier c hgap)
  · exact Layout.isBreak_of_isBlank
      (visible_of_mem_qualifierWords (h.words qualifier hqualifier) c hword)

end Closing

section Names

variable {name others : Text}

theorem isUnbroken_of_isPlain (h : Name.isPlain name = true) : IsUnbroken layout name := by
  intro c hmem
  rcases Name.isWordChar_or_of_isPlain h c hmem with hword | rfl
  · exact Layout.isBreak_of_isWordChar hword
  · exact Layout.isBreak_of_isBlank rfl

theorem isUnbroken_of_operator? {symbol? : Text → Option (Text × Text)}
    (hsymbol : ∀ {text symbol rest}, symbol? text = some (symbol, rest) → IsUnbroken layout symbol)
    (h : Name.operator? layout.isGap symbol? text = some (name, others)) :
    IsUnbroken layout name := by
  obtain ⟨gap, symbol, rest, hgap, hread, rfl⟩ := Name.exists_of_operator? h
  exact (isUnbroken_of_isPlain Name.isPlain_operatorWord).append
    ((IsUnbroken.of_isGap (List.all_eq_true.mp hgap)).append (hsymbol hread))

theorem isUnbroken_of_mem_starts (h : (name, others) ∈ Name.starts layout.isGap text) :
    IsUnbroken layout name := by
  simp only [Name.starts, List.mem_filterMap, List.mem_cons, List.not_mem_nil, or_false, id,
    exists_eq_right] at h
  rcases h with hplain | hcall | hrun
  · exact isUnbroken_of_isPlain (Name.isPlain_of_plain? hplain.symm)
  · apply isUnbroken_of_operator? _ hcall.symm
    intro text symbol rest hsymbol
    obtain ⟨_, -, heq⟩ := Option.map_eq_some_iff.mp hsymbol
    obtain ⟨rfl, -⟩ := Prod.mk.inj heq
    exact .cons (Layout.isBreak_of_isBlank rfl) (.cons (Layout.isBreak_of_isBlank rfl) .nil)
  · apply isUnbroken_of_operator? _ hrun.symm
    intro text symbol rest hsymbol c hmem
    obtain ⟨-, hchars⟩ := Name.isSymbol_of_symbolRun? hsymbol
    exact Layout.isBreak_of_isBlank (Name.of_isSymbol (hchars c hmem)).2.1

end Names

namespace Parts.AreRead

variable {parts : Parts} {pattern : Pattern} {body : Text}

/-- Behind the parameters and white space, no other parenthesis opens. -/
theorem head?_behind_params (h : parts.AreRead pattern body) :
    ((qualifiersText parts.qualifiers ++ parts.closing).dropWhile isBlank).head? ≠ some '(' := by
  have hrow := h.areInRow
  obtain ⟨text, others, inner, behind, -, -, -, -, hclosing⟩ := h.exists_pieces
  cases hlist : parts.qualifiers with
  | nil =>
      obtain ⟨gap, hgap, hcases⟩ := exists_of_beforeBody? hclosing
      have hblank : ∀ c ∈ gap, isBlank c = true := fun c hc => Layout.isBlank_of_isGap (hgap c hc)
      rcases hcases with hrest | ⟨more, hrest, -⟩
      · rw [hrest]
        simp [qualifiersText, List.dropWhile_eq_nil_iff.mpr hblank]
      · have hdrop : (gap ++ ':' :: more).dropWhile isBlank = ':' :: more :=
          Text.dropWhile_run hblank rfl
        rw [hrest]
        simp [qualifiersText, hdrop]
  | cons qualifier later =>
      rw [hlist] at hrow
      have hword := hrow.words qualifier List.mem_cons_self
      obtain ⟨c, word, hcons⟩ := List.exists_cons_of_ne_nil (qualifierWords_ne_nil hword)
      have hc : c ∈ qualifier.word := by simp [hcons]
      have hvisible : isBlank c = false := visible_of_mem_qualifierWords hword c hc
      have hparen : c ≠ '(' := by
        rintro rfl
        exact absurd (isWordChar_or_of_mem_qualifierWords hword hc) (by decide)
      have hblank : ∀ c ∈ qualifier.gap, isBlank c = true := fun c hmem =>
        Layout.isBlank_of_isGap (hrow.gaps qualifier List.mem_cons_self c hmem)
      have hdrop : (qualifier.gap ++ c :: (word ++ (qualifiersText later ++ parts.closing))).dropWhile
          isBlank = c :: (word ++ (qualifiersText later ++ parts.closing)) :=
        Text.dropWhile_run hblank hvisible
      have htext : qualifiersText (qualifier :: later) ++ parts.closing =
          qualifier.gap ++ c :: (word ++ (qualifiersText later ++ parts.closing)) := by
        simp [qualifiersText, Qualifier.text, hcons]
      rw [htext, hdrop]
      simpa using hparen

/-- The parameters do not close at once with others behind them. -/
theorem params_append_ne {gap behind : Text} (h : parts.AreRead pattern body)
    (hgap : ∀ c ∈ gap, isBlank c = true) :
    parts.params ++ ')' :: (qualifiersText parts.qualifiers ++ parts.closing) ≠
      ')' :: (gap ++ '(' :: behind) := by
  intro heq
  cases hparams : parts.params with
  | nil =>
      rw [hparams, List.nil_append] at heq
      have hparen := h.head?_behind_params
      rw [(List.cons.inj heq).2, Text.dropWhile_run hgap rfl] at hparen
      exact hparen rfl
  | cons c others =>
      rw [hparams, List.cons_append] at heq
      have hclose : parts.params = [] ++ ')' :: others := by
        rw [hparams, (List.cons.inj heq).1, List.nil_append]
      cases h.mem_of_params hclose

/-- No piece behind the return type holds a break. -/
theorem isUnbroken (h : parts.AreRead pattern body) (hproper : pattern.IsProper)
    (hresult : IsUnbroken pattern.layout parts.result) :
    IsUnbroken pattern.layout (parts.text pattern) := by
  have hrow := h.areInRow
  obtain ⟨text, others, inner, behind, hname, hgap, hparams, -, hclosing⟩ := h.exists_pieces
  have howner : IsUnbroken pattern.layout pattern.qualifier := by
    intro c hmem
    rcases hproper.isWordChar_or_of_mem hmem with hword | rfl
    · exact Layout.isBreak_of_isWordChar hword
    · exact Layout.isBreak_of_isBlank rfl
  have hopen := IsUnbroken.cons (Layout.isBreak_of_isBlank (by rfl : isBlank '(' = false))
    (nestsOnce_of_params? hparams).isUnbroken
  have hclose := IsUnbroken.cons (Layout.isBreak_of_isBlank (by rfl : isBlank ')' = false))
    (isUnbroken_qualifiersText hrow)
  exact (((((hresult.append howner).append (isUnbroken_of_mem_starts hname)).append
    (.of_isGap hgap)).append hopen).append hclose).append (isUnbroken_of_beforeBody? hclosing)

end Parts.AreRead

namespace Pattern

variable {pattern : Pattern} {parts : Parts} {body : Text}

section Result

theorem result_of_atOwner? {before : Option Char}
    (h : pattern.atOwner? before text = some (parts, body)) : parts.result = [] := by
  unfold atOwner? at h
  split at h
  next => cases h
  next =>
    obtain ⟨⟨name, others⟩, -, hfound⟩ := List.exists_of_findSome?_eq_some h
    exact (afterName?_append hfound).1

/-- The return type has no other characters than those that it may hold. -/
def HasResult (pattern : Pattern) (parts : Parts) : Prop :=
  ∀ c ∈ parts.result, pattern.isResultChar c = true

theorem isInherited_hasResult (pattern : Pattern) :
    pattern.IsInherited fun parts _ => pattern.HasResult parts := by
  constructor
  · intro before text body parts h c hmem
    rw [result_of_atOwner? h] at hmem
    cases hmem
  · intro lead body parts hlead h
    exact List.forall_mem_append.mpr ⟨hlead, h⟩

end Result

theorem isBreak_of_isResultChar (h : pattern.isResultChar c = true) :
    pattern.layout.isBreak c = false := by
  simp only [isResultChar, Bool.or_eq_true] at h
  rcases h with (hword | hgap) | hmark
  · exact Layout.isBreak_of_isWordChar hword
  · exact Layout.isBreak_of_isGap hgap
  · apply Layout.isBreak_eq_false
    rintro rfl
    exact absurd hmark (by decide)

/-- What ends a statement, a block or a block comment, opens a block or a parenthesis, or begins a
directive. -/
def stops : List Char :=
  [';', '{', '}', '#', '(', '/']

/-- A return type does not reach back over a statement, a block, a directive or a comment. -/
theorem isResultChar_of_mem_stops (h : c ∈ stops) : pattern.isResultChar c = false := by
  have hall : (stops.all fun c => !isBlank c && !isWordChar c &&
      !"*&:<>,.".toList.contains c) = true := by decide
  have hc := List.all_eq_true.mp hall c h
  simp only [Bool.and_eq_true, Bool.not_eq_true'] at hc
  exact isResultChar_eq_false hc.1.1 hc.1.2 hc.2

end Pattern

/-- The signature is made of these pieces, in the order in which they are written. -/
structure IsMadeOf (signature : Signature) (pattern : Pattern) (result name gap params rest : Text) :
    Prop where
  head : signature.head = result ++ (pattern.owner ++ ("::".toList ++
    (name ++ (gap ++ '(' :: (params ++ ')' :: rest)))))
  isResultChar_of_mem : ∀ c ∈ result, pattern.isResultChar c = true
  not_mem_result : ∀ c ∈ Pattern.stops, c ∉ result
  isName : ∃ kind : Header.MemberName, kind.isProper = true ∧ kind.text = name
  isBlank_of_mem : ∀ c ∈ gap, isBlank c = true
  nestsOnce : NestsOnce pattern.layout params
  returnType : signature.returnType = result.trim
  name : signature.name = name.withoutBlanks
  paramList : signature.paramList = params

namespace Pattern

variable {pattern : Pattern} {source : Text} {signature : Signature}

theorem isMadeOf_of_mem_signatures (hmem : signature ∈ pattern.signatures source) :
    signature.IsMadeOf pattern signature.parts.result signature.parts.name signature.parts.gap
      signature.parts.params
      (qualifiersText signature.parts.qualifiers ++ signature.parts.closing) := by
  obtain ⟨hhead, start, hmatch⟩ := exists_match?_of_mem_signaturesFrom hmem
  have hresult := (isInherited_hasResult pattern).of_match? hmatch
  obtain ⟨text, others, inner, behind, hname, hgap, hparams, -, -⟩ :=
    ((isInherited_areRead pattern).of_match? hmatch).exists_pieces
  refine
    { head := ?_
      isResultChar_of_mem := hresult
      not_mem_result := ?_
      isName := Header.MemberName.exists_of_mem_starts (fun _ => Layout.isBlank_of_isGap) hname
      isBlank_of_mem := fun c hc => Layout.isBlank_of_isGap (hgap c hc)
      nestsOnce := nestsOnce_of_params? hparams
      returnType := rfl
      name := rfl
      paramList := rfl }
  · rw [hhead, Parts.text, qualifier]
    simp only [List.append_assoc, List.cons_append]
  · intro c hc hinside
    have hchar := hresult c hinside
    rw [isResultChar_of_mem_stops hc] at hchar
    cases hchar

theorem isUnbroken_of_mem_signatures (hproper : pattern.IsProper)
    (hmem : signature ∈ pattern.signatures source) :
    IsUnbroken pattern.layout signature.head := by
  obtain ⟨hhead, start, hmatch⟩ := exists_match?_of_mem_signaturesFrom hmem
  rw [hhead]
  apply ((isInherited_areRead pattern).of_match? hmatch).isUnbroken hproper
  intro c hc
  exact isBreak_of_isResultChar ((isInherited_hasResult pattern).of_match? hmatch c hc)

/-- All that is found in a source is signatures, one behind the other: each begins a line and ends
at a brace, is made of the pieces of a signature, and stays on its line if signatures may not
wrap. -/
theorem signatures_areSound (howner : Config.isQualifiedName pattern.owner = true)
    (source : Text) :
    (pattern.signatures source).Pairwise (fun earlier later =>
      earlier.openingBrace < later.start) ∧
    ∀ signature ∈ pattern.signatures source,
      signature.StandsIn source ∧
      source.slice signature.start (signature.openingBrace + 1) = signature.head ++ ['{'] ∧
      (∃ result name gap params rest,
        signature.IsMadeOf pattern result name gap params rest) ∧
      (pattern.layout = .oneLine →
        '\n' ∉ source.slice signature.start (signature.openingBrace + 1)) := by
  refine ⟨pairwise_signaturesFrom pattern 0 true source, fun signature hmem => ?_⟩
  have hstands := standsIn_of_mem_signatures hmem
  have hslice : source.slice signature.start (signature.openingBrace + 1) =
      signature.head ++ ['{'] := by
    obtain ⟨before, htext, hstart, -⟩ := hstands
    have hone : Char.utf8Size '{' = 1 := by decide
    refine Text.slice_eq_between signature.afterBrace (by rw [htext]; simp) hstart ?_
    rw [openingBrace, ← hstart, Text.byteLength_append, Text.byteLength_append, Text.byteLength,
      hone, Text.byteLength_nil]
    omega
  refine ⟨hstands, hslice, ⟨_, _, _, _, _, isMadeOf_of_mem_signatures hmem⟩, fun hline => ?_⟩
  rw [hslice]
  intro hnewline
  have hunbroken := isUnbroken_of_mem_signatures
    (isProper_of_isQualifiedName howner) hmem
  rw [hline] at hunbroken
  rcases List.mem_append.mp hnewline with hhead | hbrace
  · exact absurd (hunbroken _ hhead) (by decide)
  · exact absurd hbrace (by decide)

/-- Behind a directive and a comment, a function that takes a function and an operator are found,
each on its line. -/
theorem signatures_areSound_operator :
    let pattern : Pattern := ⟨"ns::Foo", .oneLine⟩
    let source : Text := "#define x\n/* of */ int i;\nvoid ns::Foo::f(int (*g)(int)) \x7b\x7d\n" ++
      "bool ns::Foo::operator ==(Foo) const \x7b\x7d\n"
    ∃ first second, pattern.signatures source = [first, second] ∧
      first.openingBrace < second.start ∧ second.name = "operator==".toList ∧
      ∃ result name gap params rest, second.IsMadeOf pattern result name gap params rest := by
  intro pattern source
  have hnames : (pattern.signatures source).map Signature.name = ["f", "operator=="] := by
    decide +kernel
  obtain ⟨first, others, hlist, -, hothers⟩ := List.map_eq_cons_iff.mp hnames
  obtain ⟨second, later, rfl, hsecond, hlater⟩ := List.map_eq_cons_iff.mp hothers
  obtain rfl := List.map_eq_nil_iff.mp hlater
  have howner : Config.isQualifiedName pattern.owner = true := by decide
  obtain ⟨happart, hsound⟩ := signatures_areSound howner source
  rw [hlist] at happart hsound
  obtain ⟨-, -, hmade, -⟩ := hsound second (by simp)
  exact ⟨first, second, hlist, (List.pairwise_cons.mp happart).1 second (by simp), hsecond, hmade⟩

end Pattern

end MemberSplit.Signature
