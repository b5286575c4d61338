import MemberSplit.Proofs.Signature.Character
import MemberSplit.Signature.Basic

/-!
# Readers and what stands behind a text

A reader that begins in a text comes to its end there, and then what stands behind the text plays no
part, or it reads on into what stands behind. Which of the two it is does not depend on what stands
there. The readers of names and of parameters are of this kind, and so are readers made from them.
-/

namespace MemberSplit

namespace Text

variable {p : Char → Bool} {text : Text}

theorem dropWhile_append_of_nil (h : text.dropWhile p = []) (behind : Text) :
    (text ++ behind).dropWhile p = behind.dropWhile p := by
  rw [List.dropWhile_append, h]
  rfl

theorem dropWhile_append_of_cons {c : Char} {rest : Text} (h : text.dropWhile p = c :: rest)
    (behind : Text) : (text ++ behind).dropWhile p = c :: (rest ++ behind) := by
  rw [List.dropWhile_append, h]
  rfl

theorem takeWhile_append_of_cons {c : Char} {rest : Text} (h : text.dropWhile p = c :: rest)
    (behind : Text) : (text ++ behind).takeWhile p = text.takeWhile p := by
  have hshort : (text.takeWhile p).length ≠ text.length := by
    have hlength := congrArg List.length (List.takeWhile_append_dropWhile (p := p) (l := text))
    rw [h, List.length_append, List.length_cons] at hlength
    omega
  rw [List.takeWhile_append, if_neg hshort]

end Text

namespace Signature

variable {α β : Type} {read : Text → Option (α × Text)} {text : Text}

/-- Reads, and makes something of what was read. -/
def andMake (f : α → β) (read : Text → Option (α × Text)) (text : Text) : Option (β × Text) :=
  (read text).map fun parts => (f parts.1, parts.2)

/-- Reads, and then reads on in what is left. -/
def andThen (read : Text → Option (α × Text)) (next : α → Text → Option (β × Text)) (text : Text) :
    Option (β × Text) :=
  (read text).bind fun parts => next parts.1 parts.2

/-- What a reader leaves is the end of the text. -/
def Leaves (read : Text → Option (α × Text)) : Prop :=
  ∀ text found rest, read text = some (found, rest) → rest <:+ text

/-- The reader ends in the text, or whatever it leaves stands behind the text. -/
def Settled (read : Text → Option (α × Text)) (text : Text) : Prop :=
  (∃ found rest, ∀ behind, read (text ++ behind) = some (found, rest ++ behind)) ∨
    ∀ behind found rest, read (text ++ behind) = some (found, rest) → rest <:+ behind

theorem Leaves.make (f : α → β) (h : Leaves read) : Leaves (andMake f read) := by
  intro text found rest hread
  obtain ⟨⟨found', rest'⟩, hread', heq⟩ := Option.map_eq_some_iff.mp hread
  obtain ⟨-, rfl⟩ := Prod.mk.inj heq
  exact h _ _ _ hread'

theorem Leaves.chain {next : α → Text → Option (β × Text)} (h : Leaves read)
    (hnext : ∀ found, Leaves (next found)) : Leaves (andThen read next) := by
  intro text found rest hread
  obtain ⟨⟨first, middle⟩, hfirst, hsecond⟩ := Option.bind_eq_some_iff.mp hread
  exact (hnext first _ _ _ hsecond).trans (h _ _ _ hfirst)

theorem settled_nil (h : Leaves read) : Settled read [] :=
  .inr fun behind found rest hread => h behind found rest hread

theorem settled_none (h : ∀ behind, read (text ++ behind) = none) : Settled read text := by
  refine .inr fun behind found rest hread => ?_
  rw [h behind] at hread
  cases hread

/-- A reader that goes on from some place as another one does. -/
theorem Settled.of_eq {read' : Text → Option (α × Text)} {rest : Text}
    (heq : ∀ behind, read (text ++ behind) = read' (rest ++ behind)) (h : Settled read' rest) :
    Settled read text := by
  rcases h with ⟨found, left, hread⟩ | hbehind
  · exact .inl ⟨found, left, fun behind => (heq behind).trans (hread behind)⟩
  · exact .inr fun behind found left hread =>
      hbehind behind found left ((heq behind).symm.trans hread)

theorem Settled.make (f : α → β) (h : Settled read text) : Settled (andMake f read) text := by
  rcases h with ⟨found, rest, hread⟩ | hbehind
  · refine .inl ⟨f found, rest, fun behind => ?_⟩
    rw [andMake, hread]
    rfl
  · refine .inr fun behind found rest hread => ?_
    obtain ⟨⟨found', rest'⟩, hread', heq⟩ := Option.map_eq_some_iff.mp hread
    obtain ⟨-, rfl⟩ := Prod.mk.inj heq
    exact hbehind behind found' rest' hread'

/-- Once the first of two readers has read on into what stands behind, so has the second one. -/
theorem Settled.chain {next : α → Text → Option (β × Text)} (h : Settled read text)
    (hnext : ∀ found rest, read text = some (found, rest) → Settled (next found) rest)
    (hleaves : ∀ found, Leaves (next found)) : Settled (andThen read next) text := by
  rcases h with ⟨found, rest, hread⟩ | hbehind
  · have hself := hread []
    rw [List.append_nil, List.append_nil] at hself
    rcases hnext found rest hself with ⟨found', rest', hread'⟩ | hbehind'
    · refine .inl ⟨found', rest', fun behind => ?_⟩
      rw [andThen, hread, Option.bind_some, hread']
    · refine .inr fun behind found' rest' hread' => ?_
      rw [andThen, hread, Option.bind_some] at hread'
      exact hbehind' behind found' rest' hread'
  · refine .inr fun behind found rest hread => ?_
    obtain ⟨⟨first, middle⟩, hfirst, hsecond⟩ := Option.bind_eq_some_iff.mp hread
    exact (hleaves first _ _ _ hsecond).trans (hbehind behind first middle hfirst)

/-- Splits a text behind a mark that follows characters of one kind. -/
def upTo? (p : Char → Bool) (mark : Char) (text : Text) : Option (Text × Text) :=
  match text.dropWhile p with
  | c :: rest => if c = mark then some (text.takeWhile p, rest) else none
  | [] => none

theorem leaves_upTo? (p : Char → Bool) (mark : Char) : Leaves (upTo? p mark) := by
  intro text found rest hread
  unfold upTo? at hread
  split at hread
  next c others hdrop =>
    obtain ⟨-, hsome⟩ := Option.ite_none_right_eq_some.mp hread
    obtain ⟨-, rfl⟩ := Prod.mk.inj (Option.some.inj hsome)
    exact (List.suffix_cons c others).trans (hdrop ▸ List.dropWhile_suffix p)
  next => cases hread

theorem settled_upTo? (p : Char → Bool) (mark : Char) (text : Text) :
    Settled (upTo? p mark) text := by
  cases hdrop : text.dropWhile p with
  | nil =>
      refine .inr fun behind found rest hread => ?_
      unfold upTo? at hread
      rw [Text.dropWhile_append_of_nil hdrop] at hread
      split at hread
      next c others hbehind =>
        obtain ⟨-, hsome⟩ := Option.ite_none_right_eq_some.mp hread
        obtain ⟨-, rfl⟩ := Prod.mk.inj (Option.some.inj hsome)
        exact (List.suffix_cons c others).trans (hbehind ▸ List.dropWhile_suffix p)
      next => cases hread
  | cons c rest =>
      by_cases hmark : c = mark
      · refine .inl ⟨text.takeWhile p, rest, fun behind => ?_⟩
        rw [upTo?, Text.dropWhile_append_of_cons hdrop, Text.takeWhile_append_of_cons hdrop]
        exact if_pos hmark
      · refine settled_none fun behind => ?_
        rw [upTo?, Text.dropWhile_append_of_cons hdrop]
        exact if_neg hmark

/-- Splits a text after the run of characters of one kind that it starts with. -/
def span (p : Char → Bool) (text : Text) : Option (Text × Text) :=
  some (text.takeWhile p, text.dropWhile p)

theorem leaves_span (p : Char → Bool) : Leaves (span p) := by
  intro text found rest hread
  obtain ⟨-, rfl⟩ := Prod.mk.inj (Option.some.inj hread)
  exact List.dropWhile_suffix p

theorem settled_span (p : Char → Bool) (text : Text) : Settled (span p) text := by
  cases hdrop : text.dropWhile p with
  | nil =>
      refine .inr fun behind found rest hread => ?_
      obtain ⟨-, rfl⟩ := Prod.mk.inj (Option.some.inj hread)
      rw [Text.dropWhile_append_of_nil hdrop]
      exact List.dropWhile_suffix p
  | cons c rest =>
      refine .inl ⟨text.takeWhile p, c :: rest, fun behind => ?_⟩
      rw [span, Text.dropWhile_append_of_cons hdrop, Text.takeWhile_append_of_cons hdrop]
      rfl

/-- Splits a text after a word that it starts with. -/
def word? (word : Text) (text : Text) : Option (Unit × Text) :=
  (text.dropLead? word).map fun rest => ((), rest)

theorem leaves_word? (word : Text) : Leaves (word? word) := by
  intro text found rest hread
  obtain ⟨rest', hrest, heq⟩ := Option.map_eq_some_iff.mp hread
  obtain ⟨-, rfl⟩ := Prod.mk.inj heq
  exact ⟨word, Text.dropLead?_eq_some_iff.mp hrest⟩

theorem settled_word? (word text : Text) : Settled (word? word) text := by
  induction word generalizing text with
  | nil => exact .inl ⟨(), text, fun behind => by simp [word?, Text.dropLead?]⟩
  | cons d others ih =>
      cases text with
      | nil => exact settled_nil (leaves_word? _)
      | cons c rest =>
          by_cases hsame : d = c
          · apply (ih rest).of_eq
            intro behind
            rw [word?, List.cons_append, Text.dropLead?, if_pos hsame]
            rfl
          · apply settled_none
            intro behind
            rw [word?, List.cons_append, Text.dropLead?, if_neg hsame]
            rfl

/-- A reader that goes through a run of characters behind a first one. -/
theorem settled_cons {p q : Char → Bool} {read : Text → Option (Text × Text)}
    (hleaves : Leaves read)
    (hread : ∀ c rest, read (c :: rest) = if p c then andMake (c :: ·) (span q) rest else none)
    (text : Text) : Settled read text := by
  cases text with
  | nil => exact settled_nil hleaves
  | cons c rest =>
      cases hc : p c with
      | false => exact settled_none fun behind => by rw [List.cons_append, hread, hc]; rfl
      | true =>
          apply ((settled_span q rest).make (c :: ·)).of_eq
          intro behind
          rw [List.cons_append, hread, hc, if_pos rfl]

section Names

variable {isGap : Char → Bool} {symbol? : Text → Option (Text × Text)}

theorem leaves_identifier? : Leaves Name.identifier? :=
  fun _ _ _ hread => ⟨_, Name.identifier?_append hread⟩

theorem settled_identifier? (text : Text) : Settled Name.identifier? text :=
  settled_cons leaves_identifier? (fun _ _ => rfl) text

theorem leaves_plain? : Leaves Name.plain? := fun _ _ _ hread => ⟨_, Name.plain?_append hread⟩

theorem settled_plain? (text : Text) : Settled Name.plain? text := by
  cases text with
  | nil => exact settled_nil leaves_plain?
  | cons c rest =>
      by_cases htilde : c = '~'
      · subst htilde
        exact ((settled_identifier? rest).make ('~' :: ·)).of_eq fun _ => rfl
      · apply (settled_identifier? (c :: rest)).of_eq
        intro behind
        rw [List.cons_append, Name.plain?]
        intro others heq
        exact htilde (List.cons.inj heq).1

theorem leaves_callSymbol? : Leaves Name.callSymbol? :=
  fun _ _ _ hread => ⟨_, Name.callSymbol?_append hread⟩

theorem settled_callSymbol? (text : Text) : Settled Name.callSymbol? text := by
  apply ((settled_word? "()".toList text).make fun _ => "()".toList).of_eq
  intro behind
  rw [andMake, word?, Option.map_map]
  rfl

theorem leaves_symbolRun? : Leaves Name.symbolRun? :=
  fun _ _ _ hread => ⟨_, Name.symbolRun?_append hread⟩

theorem settled_symbolRun? (text : Text) : Settled Name.symbolRun? text := by
  refine settled_cons (p := Name.isSymbol) (q := Name.isSymbol) leaves_symbolRun? ?_ text
  intro c rest
  rw [Name.symbolRun?]
  cases hc : Name.isSymbol c with
  | false => simp [hc]
  | true => simp [hc, andMake, span]

theorem operator?_eq_andThen (text : Text) :
    Name.operator? isGap symbol? text =
      andThen (word? Name.operatorWord) (fun _ => andThen (span isGap) fun gap =>
        andMake (fun symbol => Name.operatorWord ++ gap ++ symbol) symbol?) text := by
  rw [Name.operator?, andThen, word?]
  cases text.dropLead? Name.operatorWord <;> rfl

theorem settled_operator? (hleaves : Leaves symbol?) (hsettled : ∀ text, Settled symbol? text)
    (text : Text) : Settled (Name.operator? isGap symbol?) text := by
  have hsymbol : ∀ gap, Leaves
      (andMake (fun symbol => Name.operatorWord ++ gap ++ symbol) symbol?) := fun _ =>
    hleaves.make _
  have hword := (settled_word? Name.operatorWord text).chain
    (fun _ rest _ => (settled_span isGap rest).chain
      (fun gap rest _ => (hsettled rest).make fun symbol =>
        Name.operatorWord ++ gap ++ symbol) hsymbol)
    fun _ => (leaves_span isGap).chain hsymbol
  exact hword.of_eq fun behind => operator?_eq_andThen (text ++ behind)

end Names

section Pieces

variable {layout : Layout}

theorem leaves_params? (nested : Bool) : Leaves (params? layout nested) := by
  intro text found rest hread
  exact ⟨found ++ [')'], by rw [← params?_append hread, List.append_assoc]; rfl⟩

theorem settled_params? (nested : Bool) (text : Text) : Settled (params? layout nested) text := by
  induction text generalizing nested with
  | nil => exact settled_nil (leaves_params? nested)
  | cons c rest ih =>
      -- Whether a character ends the list, goes into it or rules it out is told at the character.
      have hstep : ∀ behind, params? layout nested (c :: rest ++ behind) =
          if c = ')' then
            if nested then andMake (c :: ·) (params? layout false) (rest ++ behind)
            else some ([], rest ++ behind)
          else if c = '(' then
            if nested then none else andMake (c :: ·) (params? layout true) (rest ++ behind)
          else if layout.isBreak c then none
          else andMake (c :: ·) (params? layout nested) (rest ++ behind) := fun _ => rfl
      by_cases hclose : c = ')'
      · cases nested with
        | true =>
            apply ((ih false).make (c :: ·)).of_eq
            intro behind
            rw [hstep, if_pos hclose, if_pos rfl]
        | false =>
            refine .inl ⟨[], rest, fun behind => ?_⟩
            rw [hstep, if_pos hclose, if_neg Bool.false_ne_true]
      · by_cases hopen : c = '('
        · cases nested with
          | true =>
              apply settled_none
              intro behind
              rw [hstep, if_neg hclose, if_pos hopen, if_pos rfl]
          | false =>
              apply ((ih true).make (c :: ·)).of_eq
              intro behind
              rw [hstep, if_neg hclose, if_pos hopen, if_neg Bool.false_ne_true]
        · by_cases hbreak : layout.isBreak c = true
          · apply settled_none
            intro behind
            rw [hstep, if_neg hclose, if_neg hopen, if_pos hbreak]
          · apply ((ih nested).make (c :: ·)).of_eq
            intro behind
            rw [hstep, if_neg hclose, if_neg hopen, if_neg hbreak]

/-- A character that can be part of an initializer in braces. -/
def isInner (layout : Layout) (c : Char) : Bool :=
  !(c == '{' || c == '}' || c == ';' || layout.isBreak c)

theorem braceGroup?_cons (c : Char) (rest : Text) :
    braceGroup? layout (c :: rest) =
      if isWordChar c then
        andThen (upTo? isLineBlank '{') (fun blanks =>
          andMake (fun inner => c :: blanks ++ '{' :: inner ++ ['}']) (upTo? (isInner layout) '}'))
          rest
      else none := by
  rw [braceGroup?]
  cases isWordChar c with
  | false => rfl
  | true =>
      simp only [Bool.not_true, Bool.false_eq_true, if_false, if_true, andThen, upTo?]
      split
      next inner hblanks =>
        rw [hblanks]
        simp only [if_true, Option.bind_some, andMake, upTo?]
        split
        next others hinner =>
          have hinner' : List.dropWhile (isInner layout) inner = '}' :: others := hinner
          rw [hinner']
          rfl
        next hnone =>
          cases hdrop : List.dropWhile (isInner layout) inner with
          | nil => rfl
          | cons d others =>
              have hd : d ≠ '}' := by
                rintro rfl
                exact hnone others hdrop
              simp [hd]
      next hnone =>
        cases hdrop : List.dropWhile isLineBlank rest with
        | nil => rfl
        | cons d others =>
            have hd : d ≠ '{' := fun heq => hnone others (heq ▸ hdrop)
            simp [hd]

theorem leaves_braceGroup? : Leaves (braceGroup? layout) :=
  fun _ _ _ hread => ⟨_, braceGroup?_append hread⟩

theorem settled_braceGroup? (text : Text) : Settled (braceGroup? layout) text := by
  cases text with
  | nil => exact settled_nil leaves_braceGroup?
  | cons c rest =>
      cases hword : isWordChar c with
      | false =>
          exact settled_none fun behind => by
            rw [List.cons_append, braceGroup?_cons, hword]
            rfl
      | true =>
          have hinner : ∀ blanks, Leaves (andMake (fun inner =>
              c :: blanks ++ '{' :: inner ++ ['}']) (upTo? (isInner layout) '}')) := fun _ =>
            (leaves_upTo? _ _).make _
          have hgroup := (settled_upTo? isLineBlank '{' rest).chain
            (fun blanks inner _ => (settled_upTo? (isInner layout) '}' inner).make
              fun inner => c :: blanks ++ '{' :: inner ++ ['}']) hinner
          apply hgroup.of_eq
          intro behind
          rw [List.cons_append, braceGroup?_cons, hword, if_pos rfl]

end Pieces

end Signature

end MemberSplit
