import MemberSplit.Proofs.Header.Callable

/-!
# What a declaration is read as

A declaration is read as its name, which stands in front of its first parenthesis, unless it begins
with a word that makes it no declaration of a member, or ends in what makes a body needless. Access
specifiers in front of it are dropped.
-/

namespace MemberSplit

theorem Text.splitAtLast?_eq_some {text part before after : Text}
    (h : splitAtLast? text part = some (before, after)) : before ++ (part ++ after) = text := by
  induction text generalizing before with
  | nil =>
      obtain ⟨hempty, hparts⟩ := Option.ite_none_right_eq_some.mp h
      obtain ⟨rfl, rfl⟩ := Prod.mk.inj (Option.some.inj hparts)
      rw [List.isEmpty_iff.mp hempty]
      rfl
  | cons c rest ih =>
      rw [splitAtLast?] at h
      split at h
      next parts hrest =>
        obtain ⟨rfl, rfl⟩ := Prod.mk.inj (Option.some.inj h)
        exact congrArg (c :: ·) (ih hrest)
      next =>
        obtain ⟨left, hdrop, heq⟩ := Option.map_eq_some_iff.mp h
        obtain ⟨rfl, rfl⟩ := Prod.mk.inj heq
        rw [List.nil_append]
        exact Text.dropLead?_eq_some_iff.mp hdrop

theorem Text.withoutBlanks_append (front rest : Text) :
    Text.withoutBlanks (front ++ rest) = Text.withoutBlanks front ++ Text.withoutBlanks rest :=
  List.filter_append ..

theorem Text.withoutBlanks_cons {c : Char} (hc : isBlank c = false) (rest : Text) :
    Text.withoutBlanks (c :: rest) = c :: Text.withoutBlanks rest :=
  List.filter_cons_of_pos (by simp [hc])

theorem Text.withoutBlanks_eq_nil {blanks : Text} (h : ∀ c ∈ blanks, isBlank c = true) :
    Text.withoutBlanks blanks = [] :=
  List.filter_eq_nil_iff.mpr fun c hmem => by simp [h c hmem]

namespace Header

variable {name : MemberName} {front lead gap rest text : Text}

/-- The access specifiers. -/
def accessWords : List Text :=
  ["public:", "protected:", "private:"]

/-- What a declaration ends in whose function needs no body elsewhere. -/
def endings : List Text :=
  ["=0", "=default", "=delete"]

/-- What a declaration begins with that declares no member function. -/
def beginnings : List Text :=
  ["friend", "using", "typedef"]

/-- Whether the text, apart from white space, ends in what makes a body needless. -/
def endsBodiless (text : Text) : Bool :=
  endings.any fun ending => ending.isSuffixOf text.withoutBlanks

/-- Whether the text, apart from white space, begins with what declares no member function. -/
def beginsApart (text : Text) : Bool :=
  beginnings.any fun beginning => beginning.isPrefixOf text.withoutBlanks

theorem isSpecial_eq (text : Text) : isSpecial text = (endsBodiless text || beginsApart text) :=
  rfl

/-- The name that is read from a declaration. -/
def readName? (declaration : Text) : Option Text :=
  if isSpecial declaration then none else declaredName? declaration

section Access

theorem withoutAccess_cases (text : Text) : withoutAccess text = text ∨
    ∃ access ∈ accessWords, ∃ before, before ++ (access ++ withoutAccess text) = text := by
  unfold withoutAccess
  dsimp only
  split
  next before rest hbehind =>
    obtain ⟨access, hmem, hsplit⟩ := List.exists_of_findSome?_eq_some hbehind
    exact .inr ⟨access, hmem, before, Text.splitAtLast?_eq_some hsplit⟩
  next => exact .inl rfl

theorem withoutAccess_suffix (text : Text) : withoutAccess text <:+ text := by
  rcases withoutAccess_cases text with hself | ⟨access, -, before, htext⟩
  · exact ⟨[], hself⟩
  · exact ⟨before ++ access, by rw [List.append_assoc, htext]⟩

theorem of_mem_accessWords {access : Text} (h : access ∈ accessWords) :
    access.getLast? = some ':' ∧ '(' ∉ access := by
  have hall : accessWords.all (fun access => access.getLast? == some ':' &&
      !List.contains access '(') = true := by decide
  simpa using List.all_eq_true.mp hall access h

/-- Access specifiers are dropped only in front of a name, if none stands behind it. -/
theorem exists_withoutAccess (front : Text) (hlead : ':' ∉ lead)
    (hrest : ∀ access ∈ accessWords, ¬access <:+: rest) :
    ∃ left, left <:+ front ∧
      withoutAccess (front ++ (lead ++ '(' :: rest)) = left ++ (lead ++ '(' :: rest) := by
  rcases withoutAccess_cases (front ++ (lead ++ '(' :: rest)) with
    hself | ⟨access, hmem, before, htext⟩
  · exact ⟨front, List.suffix_rfl, hself⟩
  obtain ⟨hcolon, hparen⟩ := of_mem_accessWords hmem
  rw [← List.append_assoc] at htext
  rcases List.append_eq_append_iff.mp htext with ⟨inner, hinner, hbehind⟩ | ⟨inner, hinner, hbehind⟩
  · exact ⟨inner, ⟨before ++ access, hinner.symm⟩, hbehind⟩
  · rcases List.eq_nil_or_concat inner with rfl | ⟨others, c, rfl⟩
    · exact ⟨[], List.nil_suffix, hbehind.symm⟩
    -- The specifier would end behind the place where the name begins.
    exfalso
    have hlast := congrArg List.getLast? hinner
    rw [List.concat_eq_append] at hinner hbehind
    rw [List.getLast?_append, hcolon, Option.some_or, List.concat_eq_append, ← List.append_assoc,
      List.getLast?_concat] at hlast
    obtain rfl := Option.some.inj hlast
    rw [List.append_assoc, List.singleton_append] at hbehind
    rcases List.append_eq_append_iff.mp hbehind with ⟨middle, rfl, hmiddle⟩ | ⟨middle, rfl, hmiddle⟩
    · cases middle with
      | nil => exact absurd (List.cons.inj hmiddle).1 (by decide)
      | cons d more =>
          obtain ⟨rfl, hbeyond⟩ := List.cons.inj hmiddle
          have hends : access <:+ front ++ lead ++ '(' :: (more ++ [':']) :=
            ⟨before, by rw [hinner]; simp⟩
          have hmore := Text.isSuffix_of_append_cons hparen hends
          exact hrest access hmem (hmore.isInfix.trans ⟨[], _, by simpa using hbeyond.symm⟩)
    · cases middle with
      | nil => exact absurd (List.cons.inj hmiddle).1 (by decide)
      | cons d more =>
          obtain ⟨rfl, -⟩ := List.cons.inj hmiddle
          exact hlead (List.mem_append_right _ List.mem_cons_self)

end Access

section Name

/-- The name in front of the first parenthesis is read. -/
theorem declaredName?_append (h : name.isProper = true) (hcall : name.isCall = false)
    (hgap : ∀ c ∈ gap, isBlank c = true) (hcolon : ':' ∉ name.text) (hfront : '(' ∉ front)
    (hlast : joinsName front = false)
    (hmember : name.text.withoutBlanks ∉ nonMembers)
    (hrest : ∀ access ∈ accessWords, ¬access <:+: rest) :
    declaredName? (front ++ (name.text ++ (gap ++ '(' :: rest))) =
      some name.text.withoutBlanks := by
  have hlead : ':' ∉ name.text ++ gap := by
    intro hmem
    rcases List.mem_append.mp hmem with hname | hblank
    · exact hcolon hname
    · exact absurd (hgap _ hblank) (by decide)
  obtain ⟨left, ⟨dropped, rfl⟩, hleft⟩ := exists_withoutAccess front hlead hrest
  have hleft' : '(' ∉ left := fun hmem => hfront (List.mem_append_right _ hmem)
  rw [List.append_assoc name.text] at hleft
  rw [declaredName?, hleft, callables_append h hcall hgap hleft' (joinsName_of_append hlast),
    List.find?_cons_of_pos]
  simpa using hmember

/-- Without a parenthesis nothing is read. -/
theorem readName?_eq_none (h : '(' ∉ text) : readName? text = none := by
  have hnone : '(' ∉ withoutAccess text := fun hmem => h ((withoutAccess_suffix text).subset hmem)
  rw [readName?, declaredName?, callables_eq_nil hnone]
  split <;> rfl

end Name

section Special

/-- What a text ends in is told by what follows a mark. -/
theorem endsBodiless_append (front rest : Text) :
    endsBodiless (front ++ ')' :: rest) = endsBodiless rest := by
  have hparen : endings.all (fun ending => !List.contains ending ')') = true := by decide
  rw [endsBodiless, endsBodiless, Text.withoutBlanks_append, Text.withoutBlanks_cons (by decide),
    Bool.eq_iff_iff, List.any_eq_true, List.any_eq_true]
  refine exists_congr fun ending => and_congr_right fun hmem => ?_
  have hnone : ')' ∉ ending := by simpa using List.all_eq_true.mp hparen ending hmem
  rw [List.isSuffixOf_iff_suffix, List.isSuffixOf_iff_suffix]
  refine ⟨Text.isSuffix_of_append_cons hnone, fun hsuffix => ?_⟩
  exact hsuffix.trans ((List.suffix_cons _ _).trans (List.suffix_append _ _))

/-- What a text begins with is told by what stands in front of a mark. -/
theorem beginsApart_append (front rest : Text) :
    beginsApart (front ++ '(' :: rest) = beginsApart front := by
  have hparen : beginnings.all (fun beginning => !List.contains beginning '(') = true := by decide
  rw [beginsApart, beginsApart, Text.withoutBlanks_append, Text.withoutBlanks_cons (by decide),
    Bool.eq_iff_iff, List.any_eq_true, List.any_eq_true]
  refine exists_congr fun beginning => and_congr_right fun hmem => ?_
  have hnone : '(' ∉ beginning := by simpa using List.all_eq_true.mp hparen beginning hmem
  rw [List.isPrefixOf_iff_prefix, List.isPrefixOf_iff_prefix]
  exact ⟨Text.isPrefix_of_append_cons hnone, fun hlead => hlead.trans (List.prefix_append _ _)⟩

/-- A declaration that ends in what makes a body needless is not read. -/
theorem readName?_of_ending {ending : Text} (h : ending.withoutBlanks ∈ endings) (front : Text) :
    readName? (front ++ ending) = none := by
  have hends : endsBodiless (front ++ ending) = true := by
    rw [endsBodiless, Text.withoutBlanks_append, List.any_eq_true]
    exact ⟨_, h, List.isSuffixOf_iff_suffix.mpr (List.suffix_append _ _)⟩
  rw [readName?, isSpecial_eq, hends]
  rfl

/-- A declaration that begins, blanks apart, with what declares no member function is not read. -/
theorem readName?_of_beginning {blanks beginning : Text} (hblanks : ∀ c ∈ blanks, isBlank c = true)
    (h : beginning ∈ beginnings) (rest : Text) :
    readName? (blanks ++ (beginning ++ rest)) = none := by
  have hkept : beginnings.all (fun beginning => beginning.withoutBlanks == beginning) = true := by
    decide
  have hself : beginning.withoutBlanks = beginning := by
    simpa using List.all_eq_true.mp hkept beginning h
  have hbegins : beginsApart (blanks ++ (beginning ++ rest)) = true := by
    rw [beginsApart, Text.withoutBlanks_append, Text.withoutBlanks_eq_nil hblanks,
      List.nil_append, Text.withoutBlanks_append, hself, List.any_eq_true]
    exact ⟨_, h, List.isPrefixOf_iff_prefix.mpr (List.prefix_append _ _)⟩
  rw [readName?, isSpecial_eq, hbegins, Bool.or_true]
  rfl

end Special

end Header

end MemberSplit
