import MemberSplit.Header
import MemberSplit.Proofs.Signature.Grammar

/-!
# The first name in front of a parenthesis

A declaration is read for names that stand in front of parentheses. The first of them is the name in
front of the first parenthesis: nothing that begins before this name reaches the parenthesis, if the
name begins where it seems to.
-/

namespace MemberSplit

namespace Text

variable {part front rest : Text} {c : Char}

/-- A part without a mark that ends a text does not reach back to the mark. -/
theorem isSuffix_of_append_cons (hc : c ∉ part) (h : part <:+ front ++ c :: rest) :
    part <:+ rest := by
  rcases List.suffix_or_suffix_of_suffix h (List.suffix_append front (c :: rest)) with
    hshort | hlong
  · rcases List.suffix_cons_iff.mp hshort with rfl | hrest
    · exact absurd List.mem_cons_self hc
    · exact hrest
  · exact absurd (hlong.subset List.mem_cons_self) hc

theorem isPrefix_of_append_cons (hc : c ∉ part) (h : part <+: front ++ c :: rest) :
    part <+: front := by
  have hmark : front ++ [c] <+: front ++ c :: rest := ⟨rest, by simp⟩
  rcases List.prefix_or_prefix_of_prefix h hmark with hshort | hlong
  · rcases List.prefix_concat_iff.mp hshort with rfl | hfront
    · exact absurd (List.mem_append_right _ (List.mem_singleton_self c)) hc
    · exact hfront
  · exact absurd (hlong.subset (List.mem_append_right _ (List.mem_singleton_self c))) hc

/-- What stands in front of the first of the marks in a text is told by the text. -/
theorem eq_of_append_cons_eq {front' rest' : Text} (hfront : c ∉ front) (hfront' : c ∉ front')
    (h : front ++ c :: rest = front' ++ c :: rest') : front = front' ∧ rest = rest' := by
  have hrun : ∀ {part : Text}, c ∉ part → ∀ d ∈ part, (d != c) = true := by
    intro part hpart d hmem
    rw [bne_iff_ne]
    rintro rfl
    exact hpart hmem
  have hstop : ∀ behind : Text, (c :: behind).head?.any (· != c) = false := by simp
  have htake := congrArg (List.takeWhile (· != c)) h
  rw [takeWhile_run (hrun hfront) (hstop _), takeWhile_run (hrun hfront') (hstop _)] at htake
  subst htake
  exact ⟨rfl, (List.cons.inj (List.append_cancel_left h)).2⟩

end Text

namespace Name

variable {name rest text symbol : Text}

theorem isIdentifier_of_identifier? (h : identifier? text = some (name, rest)) :
    isIdentifier name = true := by
  cases text with
  | nil => cases h
  | cons c others =>
      obtain ⟨hstart, hsome⟩ := Option.ite_none_right_eq_some.mp h
      obtain ⟨rfl, -⟩ := Prod.mk.inj (Option.some.inj hsome)
      rw [isIdentifier, hstart, Bool.true_and, List.all_eq_true]
      exact fun _ => List.mem_takeWhile_imp

theorem isPlain_of_isIdentifier (h : isIdentifier name = true) : isPlain name = true := by
  unfold isPlain
  split
  next others =>
    rw [isIdentifier, Bool.and_eq_true] at h
    exact absurd h.1 (by decide)
  next => exact h

theorem isPlain_of_plain? (h : plain? text = some (name, rest)) : isPlain name = true := by
  unfold plain? at h
  split at h
  · obtain ⟨⟨name', rest'⟩, hname, heq⟩ := Option.map_eq_some_iff.mp h
    obtain ⟨rfl, -⟩ := Prod.mk.inj heq
    exact isIdentifier_of_identifier? hname
  · exact isPlain_of_isIdentifier (isIdentifier_of_identifier? h)

/-- A plain name ends in a word. -/
theorem isWordChar_of_getLast? (h : isPlain name = true) {c : Char}
    (hlast : name.getLast? = some c) : isWordChar c = true := by
  unfold isPlain at h
  split at h
  next others =>
    cases others with
    | nil => cases h
    | cons d more =>
        rw [List.getLast?_cons_cons] at hlast
        exact isWordChar_of_isIdentifier h c (List.mem_of_getLast? hlast)
  next => exact isWordChar_of_isIdentifier h c (List.mem_of_getLast? hlast)

theorem isPlain_operatorWord : isPlain operatorWord = true := by
  decide

theorem ne_nil_of_isPlain (h : isPlain name = true) : name ≠ [] := by
  rintro rfl
  cases h

theorem of_isSymbol {c : Char} (h : isSymbol c = true) :
    isWordChar c = false ∧ isBlank c = false ∧ c ≠ '(' := by
  simpa [isSymbol, and_assoc] using h

theorem isSymbol_of_symbolRun? (h : symbolRun? text = some (symbol, rest)) :
    symbol ≠ [] ∧ ∀ c ∈ symbol, isSymbol c = true := by
  unfold symbolRun? at h
  split at h
  · cases h
  next hne =>
    obtain ⟨rfl, -⟩ := Prod.mk.inj (Option.some.inj h)
    exact ⟨hne, fun _ => List.mem_takeWhile_imp⟩

theorem exists_of_operator? {isGap : Char → Bool} {symbol? : Text → Option (Text × Text)}
    (h : operator? isGap symbol? text = some (name, rest)) :
    ∃ gap symbol rest', gap.all isGap = true ∧ symbol? rest' = some (symbol, rest) ∧
      name = operatorWord ++ (gap ++ symbol) := by
  unfold operator? at h
  split at h
  · cases h
  next behind _ =>
    obtain ⟨⟨symbol, others⟩, hsymbol, heq⟩ := Option.map_eq_some_iff.mp h
    obtain ⟨rfl, rfl⟩ := Prod.mk.inj heq
    refine ⟨behind.takeWhile isGap, symbol, _, ?_, hsymbol, List.append_assoc ..⟩
    rw [List.all_eq_true]
    exact fun _ => List.mem_takeWhile_imp

end Name

namespace Header

/-- Whether a name behind the text would be read together with the end of the text. -/
def joinsName (front : Text) : Bool :=
  front.getLast?.any fun c => isWordChar c || c == '~'

theorem joinsName_of_append {before front : Text} (h : joinsName (before ++ front) = false) :
    joinsName front = false := by
  unfold joinsName at h ⊢
  cases hlast : front.getLast? with
  | none => rfl
  | some c =>
      rw [List.getLast?_append, hlast, Option.some_or] at h
      exact h

/-- How a member function is named. -/
inductive MemberName where
  /-- An identifier, with or without a tilde. -/
  | plain (text : Text)
  /-- The word `operator`, white space and a symbol. -/
  | operator (gap symbol : Text)
  /-- The word `operator`, white space and the brackets of the call operator. -/
  | call (gap : Text)
  deriving DecidableEq, Repr

namespace MemberName

/-- The name as it is written. -/
def text : MemberName → Text
  | plain text => text
  | operator gap symbol => Name.operatorWord ++ (gap ++ symbol)
  | call gap => Name.operatorWord ++ (gap ++ "()".toList)

/-- Whether the name is made of the characters that its kind asks for. -/
def isProper : MemberName → Bool
  | plain text => Name.isPlain text
  | operator gap symbol => gap.all isBlank && !symbol.isEmpty && symbol.all Name.isSymbol
  | call gap => gap.all isBlank

/-- Whether the name is that of the call operator. -/
def isCall : MemberName → Bool
  | call _ => true
  | _ => false

/-- The name that is read in place of the name: in front of the brackets of the call operator there
is a word already. -/
def read : MemberName → MemberName
  | call _ => plain Name.operatorWord
  | name => name

variable {name name' : MemberName} {text start front gap rest : Text}

theorem isProper_read (h : name.isProper = true) : name.read.isProper = true := by
  cases name with
  | plain | operator => exact h
  | call gap => exact Name.isPlain_operatorWord

theorem isCall_read (name : MemberName) : name.read.isCall = false := by
  cases name <;> rfl

theorem read_eq_self (hcall : name.isCall = false) : name.read = name := by
  cases name with
  | plain | operator => rfl
  | call gap => cases hcall

theorem read_eq_plain (hcall : name.isCall = true) : name.read = plain Name.operatorWord := by
  cases name with
  | plain | operator => cases hcall
  | call gap => rfl

/-- Every name that a text can start with is made of the characters that its kind asks for. -/
theorem exists_of_mem_starts {isGap : Char → Bool} (hblank : ∀ c, isGap c = true → isBlank c = true)
    (h : (start, rest) ∈ Name.starts isGap text) :
    ∃ name : MemberName, name.isProper = true ∧ name.text = start := by
  have hblanks : ∀ {gap : Text}, gap.all isGap = true → gap.all isBlank = true := by
    intro gap hgap
    exact List.all_eq_true.mpr fun c hc => hblank c (List.all_eq_true.mp hgap c hc)
  simp only [Name.starts, List.mem_filterMap, List.mem_cons, List.not_mem_nil, or_false, id,
    exists_eq_right] at h
  rcases h with hplain | hcall | hrun
  · exact ⟨.plain start, Name.isPlain_of_plain? hplain.symm, rfl⟩
  · obtain ⟨gap, symbol, rest', hgap, hsymbol, rfl⟩ := Name.exists_of_operator? hcall.symm
    obtain ⟨_, -, heq⟩ := Option.map_eq_some_iff.mp hsymbol
    obtain ⟨rfl, -⟩ := Prod.mk.inj heq
    exact ⟨.call gap, hblanks hgap, rfl⟩
  · obtain ⟨gap, symbol, rest', hgap, hsymbol, rfl⟩ := Name.exists_of_operator? hrun.symm
    obtain ⟨hne, hchars⟩ := Name.isSymbol_of_symbolRun? hsymbol
    refine ⟨.operator gap symbol, ?_, rfl⟩
    simpa [isProper, hblanks hgap, hne] using hchars

theorem parts_of_isProper {symbol : Text} (h : (operator gap symbol).isProper = true) :
    (∀ c ∈ gap, isBlank c = true) ∧ symbol ≠ [] ∧ ∀ c ∈ symbol, Name.isSymbol c = true := by
  simpa [isProper, and_assoc] using h

theorem not_mem_text (h : name.isProper = true) (hcall : name.isCall = false) :
    '(' ∉ name.text := by
  cases name with
  | plain text =>
      intro hmem
      exact absurd (Name.isWordChar_or_of_isPlain h _ hmem) (by decide)
  | operator gap symbol =>
      obtain ⟨hgap, -, hsymbol⟩ := parts_of_isProper h
      intro hmem
      rcases List.mem_append.mp hmem with hword | hmem
      · exact absurd hword (by decide)
      · rcases List.mem_append.mp hmem with hblank | hmark
        · exact absurd (hgap _ hblank) (by decide)
        · exact absurd (hsymbol _ hmark) (by decide)
  | call gap => cases hcall

theorem exists_getLast?_text (h : name.isProper = true) (hcall : name.isCall = false) :
    ∃ c, name.text.getLast? = some c ∧ isBlank c = false := by
  cases name with
  | plain word =>
      obtain ⟨c, hc⟩ := Option.isSome_iff_exists.mp
        (List.getLast?_isSome.mpr (Name.ne_nil_of_isPlain h))
      refine ⟨c, hc, Bool.eq_false_iff.mpr fun hblank => ?_⟩
      have hword := Name.isWordChar_of_getLast? h hc
      rw [isWordChar_of_isBlank hblank] at hword
      cases hword
  | operator gap symbol =>
      obtain ⟨-, hne, hsymbol⟩ := parts_of_isProper h
      obtain ⟨c, hc⟩ := Option.isSome_iff_exists.mp (List.getLast?_isSome.mpr hne)
      refine ⟨c, ?_, (Name.of_isSymbol (hsymbol c (List.mem_of_getLast? hc))).2.1⟩
      rw [MemberName.text, List.getLast?_append, List.getLast?_append, hc, Option.some_or,
        Option.some_or]
  | call gap => cases hcall

/-- A name does not end in white space, whatever stands in front of it. -/
theorem any_isBlank_getLast? (h : name.isProper = true) (hcall : name.isCall = false)
    (front : Text) : (front ++ name.text).getLast?.any isBlank = false := by
  obtain ⟨c, hc, hblank⟩ := exists_getLast?_text h hcall
  rw [List.getLast?_append, hc, Option.some_or]
  exact hblank

/-- In front of the first parenthesis there is the name that is read, and behind that of the call
operator the parentheses of its name are closed. -/
theorem exists_text_append (name : MemberName) (hgap : ∀ c ∈ gap, isBlank c = true)
    (h : name.isProper = true) (rest : Text) : ∃ gap' rest', (∀ c ∈ gap', isBlank c = true) ∧
      name.text ++ (gap ++ '(' :: rest) = name.read.text ++ (gap' ++ '(' :: rest') ∧
      rest' = if name.isCall then ')' :: (gap ++ '(' :: rest) else rest := by
  cases name with
  | plain | operator => exact ⟨gap, rest, hgap, rfl, rfl⟩
  | call inner =>
      refine ⟨inner, ')' :: (gap ++ '(' :: rest), List.all_eq_true.mp h, ?_, rfl⟩
      simp [text, read]

theorem nonWord {symbol : Text} (hgap : ∀ c ∈ gap, isBlank c = true)
    (hsymbol : ∀ c ∈ symbol, Name.isSymbol c = true) :
    ∀ c ∈ gap ++ symbol, (!isWordChar c) = true := by
  intro c hmem
  rw [Bool.not_eq_true']
  rcases List.mem_append.mp hmem with hblank | hmark
  · exact isWordChar_of_isBlank (hgap c hblank)
  · exact (Name.of_isSymbol (hsymbol c hmark)).1

/-- No name is the end of another one, if no word goes on behind its start. -/
theorem eq_nil_of_text_eq (h : name.isProper = true) (h' : name'.isProper = true)
    (hcall : name.isCall = false) (hcall' : name'.isCall = false)
    (hfront : joinsName front = false)
    (heq : name'.text = front ++ name.text) : front = [] := by
  cases name' with
  | call gap => cases hcall'
  | plain text =>
      by_contra hne
      obtain ⟨c, hc⟩ := Option.isSome_iff_exists.mp (List.getLast?_isSome.mpr hne)
      have hmem : c ∈ text := by
        have htext : text = front ++ name.text := heq
        rw [htext]
        exact List.mem_append_left _ (List.mem_of_getLast? hc)
      rw [joinsName, hc] at hfront
      have hother : ¬(isWordChar c = true ∨ c = '~') := by simpa using hfront
      exact hother (Name.isWordChar_or_of_isPlain h' c hmem)
  | operator gap' symbol' =>
      obtain ⟨hgap', hne', hsymbol'⟩ := parts_of_isProper h'
      cases name with
      | call gap => cases hcall
      | plain text =>
          -- The one name ends in a word, and the other in a symbol.
          have hlast := congrArg List.getLast? heq
          obtain ⟨c, hc⟩ := Option.isSome_iff_exists.mp (List.getLast?_isSome.mpr hne')
          obtain ⟨d, hd⟩ := Option.isSome_iff_exists.mp
            (List.getLast?_isSome.mpr (Name.ne_nil_of_isPlain h))
          rw [MemberName.text, MemberName.text, List.getLast?_append, List.getLast?_append, hc,
            List.getLast?_append, hd] at hlast
          obtain rfl : c = d := Option.some.inj hlast
          have hword := Name.isWordChar_of_getLast? h hd
          rw [(Name.of_isSymbol (hsymbol' c (List.mem_of_getLast? hc))).1] at hword
          cases hword
      | operator gap symbol =>
          -- Without what is no word at the end, both names end in the same word.
          obtain ⟨hgap, -, hsymbol⟩ := parts_of_isProper h
          have hdrop := congrArg (List.rdropWhile fun c => !isWordChar c) heq
          rw [MemberName.text, MemberName.text, ← List.append_assoc front] at hdrop
          rw [Text.rdropWhile_run (nonWord hgap' hsymbol') (by decide),
            Text.rdropWhile_run (nonWord hgap hsymbol) (by rw [List.getLast?_append]; rfl)] at hdrop
          exact List.self_eq_append_left.mp hdrop

end MemberName

variable {name : MemberName} {front gap rest text others : Text}

section Callable

theorem exists_of_callable? {start : Text} (h : callable? text = some (start, others)) :
    ∃ (name : MemberName) (gap : Text), name.isProper = true ∧ (∀ c ∈ gap, isBlank c = true) ∧
      text = name.text ++ (gap ++ '(' :: others) := by
  obtain ⟨⟨start', behind⟩, hmem, hcall⟩ := List.exists_of_findSome?_eq_some h
  obtain ⟨name, hproper, hname⟩ := MemberName.exists_of_mem_starts (fun _ => id) hmem
  refine ⟨name, behind.takeWhile isBlank, hproper, fun _ => List.mem_takeWhile_imp, ?_⟩
  simp only at hcall
  split at hcall
  next rest hrest =>
    obtain ⟨rfl, rfl⟩ := Prod.mk.inj (Option.some.inj hcall)
    rw [hname, ← hrest, List.takeWhile_append_dropWhile, Name.append_of_mem_starts hmem]
  next => cases hcall

/-- Nothing that begins in front of a name reaches the parenthesis behind it. -/
theorem callable?_eq_none (h : name.isProper = true) (hcall : name.isCall = false)
    (hgap : ∀ c ∈ gap, isBlank c = true) (hne : front ≠ []) (hfront : '(' ∉ front)
    (hlast : joinsName front = false) (rest : Text) :
    callable? (front ++ (name.text ++ (gap ++ '(' :: rest))) = none := by
  by_contra hsome
  obtain ⟨⟨start, others⟩, hfound⟩ := Option.ne_none_iff_exists'.mp hsome
  obtain ⟨name', gap', hproper', hgap', heq⟩ := exists_of_callable? hfound
  obtain ⟨gap'', others', hgap'', hread, -⟩ := name'.exists_text_append hgap' hproper' others
  have hproper'' := MemberName.isProper_read hproper'
  have hcall'' := name'.isCall_read
  have hblank : ∀ {part : Text}, (∀ c ∈ part, isBlank c = true) → '(' ∉ part := fun hpart hmem =>
    absurd (hpart _ hmem) (by decide)
  have hwhole : front ++ (name.text ++ gap) ++ '(' :: rest =
      name'.read.text ++ gap'' ++ '(' :: others' := by
    rw [List.append_assoc name'.read.text, ← hread, ← heq]
    simp
  have hleft : '(' ∉ front ++ (name.text ++ gap) := by
    simp [hfront, MemberName.not_mem_text h hcall, hblank hgap]
  have hright : '(' ∉ name'.read.text ++ gap'' := by
    simp [MemberName.not_mem_text hproper'' hcall'', hblank hgap'']
  obtain ⟨hnames, -⟩ := Text.eq_of_append_cons_eq hleft hright hwhole
  have hdrop := congrArg (List.rdropWhile isBlank) hnames
  have hread' : name'.read.text.getLast?.any isBlank = false :=
    MemberName.any_isBlank_getLast? hproper'' hcall'' []
  rw [← List.append_assoc, Text.rdropWhile_run hgap (MemberName.any_isBlank_getLast? h hcall front),
    Text.rdropWhile_run hgap'' hread'] at hdrop
  exact hne (MemberName.eq_nil_of_text_eq h hproper'' hcall hcall'' hlast hdrop.symm)

/-- A name, if a parenthesis follows. -/
def upToParen? (parts : Text × Text) : Option (Text × Text) :=
  match parts.2.dropWhile isBlank with
  | '(' :: others => some (parts.1, others)
  | _ => none

theorem findSome?_filterMap_cons {α β : Type} (f : α → Option β) (first : Option α)
    (rest : List (Option α)) : ((first :: rest).filterMap id).findSome? f =
      (first.bind f).or ((rest.filterMap id).findSome? f) := by
  cases first with
  | none => rfl
  | some found =>
      have hkept : (some found :: rest).filterMap id = found :: rest.filterMap id := rfl
      rw [hkept, List.findSome?_cons, Option.bind_some]
      cases f found <;> rfl

theorem callable?_eq (text : Text) :
    callable? text = ((Name.plain? text).bind upToParen?).or
      (((Name.operator? isBlank Name.callSymbol? text).bind upToParen?).or
        ((Name.operator? isBlank Name.symbolRun? text).bind upToParen?)) := by
  have hstarts : callable? text = (Name.starts isBlank text).findSome? upToParen? := rfl
  rw [hstarts, Name.starts, findSome?_filterMap_cons, findSome?_filterMap_cons,
    findSome?_filterMap_cons, List.filterMap_nil, List.findSome?_nil, Option.or_none]

theorem upToParen?_of_blanks (hgap : ∀ c ∈ gap, isBlank c = true) (start rest : Text) :
    upToParen? (start, gap ++ '(' :: rest) = some (start, rest) := by
  have hopen : (gap ++ '(' :: rest).dropWhile isBlank = '(' :: rest :=
    Text.dropWhile_run hgap rfl
  simp only [upToParen?, hopen]

theorem upToParen?_eq_none {c : Char} (hgap : ∀ d ∈ gap, isBlank d = true)
    (hblank : isBlank c = false) (hc : c ≠ '(') (start rest : Text) :
    upToParen? (start, gap ++ c :: rest) = none := by
  have hopen : (gap ++ c :: rest).dropWhile isBlank = c :: rest := Text.dropWhile_run hgap hblank
  simp only [upToParen?, hopen]
  split
  next heq => exact absurd (List.cons.inj heq).1 hc
  next => rfl

/-- The word `operator` in front of white space is followed by the symbol. -/
theorem operator?_append {c : Char} (hgap : ∀ d ∈ gap, isBlank d = true)
    (hblank : isBlank c = false) (symbol? : Text → Option (Text × Text)) (rest : Text) :
    Name.operator? isBlank symbol? (Name.operatorWord ++ (gap ++ c :: rest)) =
      (symbol? (c :: rest)).map (Text.extend (Name.operatorWord ++ gap)) := by
  have hstop : (c :: rest).head?.any isBlank = false := hblank
  rw [Name.operator?, Text.dropLead?_eq_some_iff.mpr rfl]
  simp only [Text.dropWhile_run hgap hstop, Text.takeWhile_run hgap hstop]

theorem any_isWordChar_head? {c : Char} (hgap : ∀ d ∈ gap, isBlank d = true)
    (hc : isWordChar c = false) (rest : Text) :
    (gap ++ c :: rest).head?.any isWordChar = false := by
  cases gap with
  | nil => exact hc
  | cons d others => exact isWordChar_of_isBlank (hgap d List.mem_cons_self)

/-- A name in front of a parenthesis is read. -/
theorem callable?_text (h : name.isProper = true) (hcall : name.isCall = false)
    (hgap : ∀ c ∈ gap, isBlank c = true) (rest : Text) :
    callable? (name.text ++ (gap ++ '(' :: rest)) = some (name.text, rest) := by
  cases name with
  | plain word =>
      have hplain := Name.plain?_append_of_isPlain h
        (any_isWordChar_head? hgap (by decide : isWordChar '(' = false) rest)
      rw [callable?_eq, MemberName.text, hplain, Option.bind_some, upToParen?_of_blanks hgap,
        Option.some_or]
  | operator inner symbol =>
      obtain ⟨hinner, hne, hsymbol⟩ := MemberName.parts_of_isProper h
      obtain ⟨c, others, rfl⟩ := List.exists_cons_of_ne_nil hne
      obtain ⟨hword, hblank, hparen⟩ := Name.of_isSymbol (hsymbol c List.mem_cons_self)
      have htext : (MemberName.operator inner (c :: others)).text ++ (gap ++ '(' :: rest) =
          Name.operatorWord ++ (inner ++ c :: (others ++ (gap ++ '(' :: rest))) := by
        simp [MemberName.text]
      have hplain := Name.plain?_append_of_isPlain Name.isPlain_operatorWord
        (any_isWordChar_head? hinner hword (others ++ (gap ++ '(' :: rest)))
      have hbrackets : Name.callSymbol? (c :: (others ++ (gap ++ '(' :: rest))) = none := by
        have hlead : Text.dropLead? (c :: (others ++ (gap ++ '(' :: rest))) "()".toList = none :=
          if_neg (Ne.symm hparen)
        rw [Name.callSymbol?, hlead, Option.map_none]
      have hstop : (gap ++ '(' :: rest).head?.any Name.isSymbol = false := by
        cases gap with
        | nil => rfl
        | cons d more => simp [Name.isSymbol, hgap d List.mem_cons_self]
      have hrun : Name.symbolRun? (c :: (others ++ (gap ++ '(' :: rest))) =
          some (c :: others, gap ++ '(' :: rest) := by
        rw [← List.cons_append, Name.symbolRun?, Text.takeWhile_run hsymbol hstop,
          Text.dropWhile_run hsymbol hstop]
      rw [htext, callable?_eq, hplain, Option.bind_some, upToParen?_eq_none hinner hblank hparen,
        operator?_append hinner hblank, hbrackets, operator?_append hinner hblank, hrun]
      simp only [Option.none_or, Option.map_none, Option.map_some, Option.bind_none,
        Option.bind_some, Text.extend_mk, upToParen?_of_blanks hgap, MemberName.text,
        List.append_assoc]
  | call inner => cases hcall

theorem callables_of_some {start : Text} (h : callable? text = some (start, others)) :
    callables text = start.withoutBlanks :: callables others := by
  cases text with
  | nil => cases h
  | cons c rest =>
      rw [callables]
      split
      next hsome =>
        rw [h] at hsome
        obtain ⟨rfl, rfl⟩ := Prod.mk.inj (Option.some.inj hsome)
        rfl
      next hnone =>
        rw [h] at hnone
        cases hnone

theorem callables_cons_of_none {c : Char} (h : callable? (c :: rest) = none) :
    callables (c :: rest) = callables rest := by
  rw [callables]
  split
  next hsome =>
    rw [h] at hsome
    cases hsome
  next => rfl

/-- The first name in front of a parenthesis is the one in front of the first parenthesis. -/
theorem callables_append (h : name.isProper = true) (hcall : name.isCall = false)
    (hgap : ∀ c ∈ gap, isBlank c = true) (hfront : '(' ∉ front)
    (hlast : joinsName front = false) (rest : Text) :
    callables (front ++ (name.text ++ (gap ++ '(' :: rest))) =
      name.text.withoutBlanks :: callables rest := by
  induction front with
  | nil => exact callables_of_some (callable?_text h hcall hgap rest)
  | cons c others ih =>
      obtain ⟨-, hothers⟩ := List.ne_and_not_mem_of_not_mem_cons hfront
      have hlater := @joinsName_of_append [c] others hlast
      have hnone := callable?_eq_none h hcall hgap (List.cons_ne_nil c others) hfront hlast rest
      rw [List.cons_append] at hnone ⊢
      rw [callables_cons_of_none hnone, ih hothers hlater]

/-- Without a parenthesis no name is read. -/
theorem callables_eq_nil (h : '(' ∉ text) : callables text = [] := by
  induction text with
  | nil => rw [callables]
  | cons c rest ih =>
      obtain ⟨-, hrest⟩ := List.ne_and_not_mem_of_not_mem_cons h
      have hnone : callable? (c :: rest) = none := by
        by_contra hsome
        obtain ⟨⟨start, others⟩, hfound⟩ := Option.ne_none_iff_exists'.mp hsome
        obtain ⟨name, gap, -, -, htext⟩ := exists_of_callable? hfound
        rw [htext] at h
        simp at h
      rw [callables_cons_of_none hnone, ih hrest]

end Callable

end Header

end MemberSplit
