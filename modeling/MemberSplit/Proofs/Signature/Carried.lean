import MemberSplit.Proofs.Signature.Settled
import MemberSplit.Proofs.Signature.Grammar

/-!
# Signatures in front of another text

A signature ends at the brace of a body. So put a text without such a brace in place of all that
stands behind some text: the signatures that end in front of it stay, and there are no new ones. Of
the readers that a signature is put together from, each carries what it finds from the old text to
the new one.
-/

namespace MemberSplit.Signature

variable {α β : Type} {behind behind' : Text}

/-- What is found in front of the old text is found in front of the new one, and where nothing was
found there is nothing. -/
def Carries (behind behind' : Text) (old new : Option (α × Text)) : Prop :=
  (old = none → new = none) ∧
    ∀ found rest, old = some (found, rest ++ behind) → new = some (found, rest ++ behind')

/-- What a reader leaves stands behind a brace that it has read. -/
def Opens (read : Text → Option (α × Text)) : Prop :=
  ∀ text found rest, read text = some (found, rest) → '{' :: rest <:+ text

namespace Carries

variable {old new old' new' : Option (α × Text)}

theorem nothing : Carries behind behind' (none : Option (α × Text)) none :=
  ⟨fun _ => rfl, fun _ _ h => by cases h⟩

theorem here (found : α) (rest : Text) :
    Carries behind behind' (some (found, rest ++ behind)) (some (found, rest ++ behind')) := by
  refine ⟨fun h => (by cases h), fun found' rest' h => ?_⟩
  obtain ⟨rfl, hrest⟩ := Prod.mk.inj (Option.some.inj h)
  rw [List.append_cancel_right hrest]

theorem or (hfirst : Carries behind behind' old new) (hsecond : Carries behind behind' old' new') :
    Carries behind behind' (old.or old') (new.or new') := by
  cases hold : old with
  | none =>
      rw [hfirst.1 hold]
      exact hsecond
  | some parts =>
      refine ⟨fun h => (by cases h), fun found rest h => ?_⟩
      rw [hfirst.2 found rest (hold.trans h)]
      rfl

theorem map (f : α → β) (h : Carries behind behind' old new) :
    Carries behind behind' (old.map fun parts => (f parts.1, parts.2))
      (new.map fun parts => (f parts.1, parts.2)) := by
  refine ⟨fun hold => ?_, fun found rest hold => ?_⟩
  · rw [h.1 (Option.map_eq_none_iff.mp hold)]
    rfl
  · obtain ⟨⟨found', rest'⟩, hold', heq⟩ := Option.map_eq_some_iff.mp hold
    obtain ⟨rfl, rfl⟩ := Prod.mk.inj heq
    rw [h.2 found' rest hold']
    rfl

end Carries

/-- Behind a reader of any kind, a reader that has to read a brace still has to. -/
theorem Leaves.opens {read : Text → Option (α × Text)} {next : α → Text → Option (β × Text)}
    (h : Leaves read) (hnext : ∀ found, Opens (next found)) : Opens (andThen read next) := by
  intro text found rest hread
  obtain ⟨⟨first, middle⟩, hfirst, hsecond⟩ := Option.bind_eq_some_iff.mp hread
  exact (hnext first _ _ _ hsecond).trans (h _ _ _ hfirst)

/-- A reader that has to read a brace finds nothing in front of either text, if it begins in a text
without one. -/
theorem Opens.carries {read : Text → Option (α × Text)} {text : Text} (h : Opens read)
    (htext : '{' ∉ text) (hbehind : '{' ∉ behind') :
    Carries behind behind' (read (text ++ behind)) (read (text ++ behind')) := by
  refine ⟨fun _ => ?_, fun found rest hold => ?_⟩
  · cases hnew : read (text ++ behind') with
    | none => rfl
    | some parts =>
        have hmem := (h _ _ _ hnew).subset List.mem_cons_self
        exact absurd hmem (by simp [htext, hbehind])
  · obtain ⟨front, hfront⟩ := h _ _ _ hold
    have hcut : (front ++ '{' :: rest) ++ behind = text ++ behind := by
      rw [← hfront]
      simp
    have hmem : '{' ∈ text := by
      rw [← List.append_cancel_right hcut]
      simp
    exact absurd hmem htext

/-- A reader that settles where it ends, and then one that has to read a brace. -/
theorem Settled.carries {read : Text → Option (α × Text)} {next : α → Text → Option (β × Text)}
    {text : Text} (h : Settled read text) (hopens : ∀ found, Opens (next found))
    (hnext : ∀ found rest, read text = some (found, rest) →
      Carries behind behind' (next found (rest ++ behind)) (next found (rest ++ behind')))
    (hbehind : '{' ∉ behind') :
    Carries behind behind' (andThen read next (text ++ behind))
      (andThen read next (text ++ behind')) := by
  rcases h with ⟨found, rest, hread⟩ | hleft
  · have hself := hread []
    rw [List.append_nil, List.append_nil] at hself
    have hcarries := hnext found rest hself
    rwa [andThen, andThen, hread, hread, Option.bind_some, Option.bind_some]
  · -- The brace would have to stand in what is behind the text.
    refine ⟨fun _ => ?_, fun found rest hold => ?_⟩
    · cases hnew : andThen read next (text ++ behind') with
      | none => rfl
      | some parts =>
          obtain ⟨⟨first, middle⟩, hfirst, hsecond⟩ := Option.bind_eq_some_iff.mp hnew
          have hbrace := hopens first _ _ _ hsecond
          exact absurd ((hbrace.trans (hleft _ _ _ hfirst)).subset List.mem_cons_self) hbehind
    · obtain ⟨⟨first, middle⟩, hfirst, hsecond⟩ := Option.bind_eq_some_iff.mp hold
      have hlength := ((hopens first _ _ _ hsecond).trans (hleft _ _ _ hfirst)).length_le
      simp only [List.length_cons, List.length_append] at hlength
      omega

section Pieces

variable {layout : Layout}

theorem Opens.of_append {read : Text → Option (Text × Text)}
    (h : ∀ {text found rest}, read text = some (found, rest) → found ++ '{' :: rest = text) :
    Opens read := fun _ _ _ hread => ⟨_, h hread⟩

theorem Opens.make (f : α → β) {read : Text → Option (α × Text)} (h : Opens read) :
    Opens (andMake f read) := by
  intro text found rest hread
  obtain ⟨⟨found', rest'⟩, hread', heq⟩ := Option.map_eq_some_iff.mp hread
  obtain ⟨-, rfl⟩ := Prod.mk.inj heq
  exact h _ _ _ hread'

theorem opens_initializers? : Opens (initializers? layout) := .of_append initializers?_append

/-- A group in braces is passed over, or read as any other characters if nothing is found then. -/
theorem initializers?_cons_eq_or {c : Char} (hbrace : c ≠ '{')
    (hstop : ¬(c = ';' || layout.isBreak c) = true) (rest : Text) :
    initializers? layout (c :: rest) =
      (andThen (braceGroup? layout) (fun group => andMake (group ++ ·) (initializers? layout))
        (c :: rest)).or (andMake (c :: ·) (initializers? layout) rest) := by
  rw [initializers?, if_neg hbrace, if_neg hstop, andThen]
  split
  next hgroup =>
    rw [hgroup]
    rfl
  next group others hgroup =>
    rw [hgroup, Option.bind_some, andMake]
    cases initializers? layout others <;> rfl

theorem carries_initializers? (hbehind : '{' ∉ behind') (text : Text) :
    Carries behind behind' (initializers? layout (text ++ behind))
      (initializers? layout (text ++ behind')) := by
  -- The reader goes on behind a whole group, so the induction is on the length.
  induction hlength : text.length using Nat.strongRecOn generalizing text with
  | ind length ih =>
      subst hlength
      cases text with
      | nil => exact opens_initializers?.carries List.not_mem_nil hbehind
      | cons c rest =>
          have hrest := ih rest.length (by simp) rest rfl
          by_cases hbrace : c = '{'
          · rw [List.cons_append, List.cons_append, initializers?, initializers?, if_pos hbrace,
              if_pos hbrace]
            exact .here [] rest
          · by_cases hstop : (c = ';' || layout.isBreak c) = true
            · rw [List.cons_append, List.cons_append, initializers?, initializers?, if_neg hbrace,
                if_neg hbrace, if_pos hstop, if_pos hstop]
              exact .nothing
            · rw [List.cons_append, List.cons_append, initializers?_cons_eq_or hbrace hstop,
                initializers?_cons_eq_or hbrace hstop]
              refine .or ?_ (hrest.map _)
              have hgroup : Settled (braceGroup? layout) (c :: rest) := settled_braceGroup? _
              refine hgroup.carries (fun group => opens_initializers?.make _) ?_ hbehind
              intro group others hothers
              have hshort := length_lt_of_braceGroup? hothers
              exact (ih others.length hshort others rfl).map _

theorem opens_beforeBody? : Opens (beforeBody? layout) := .of_append beforeBody?_append

theorem beforeBody?_eq_none {text rest : Text} {c : Char}
    (h : text.dropWhile layout.isGap = c :: rest) (hbrace : c ≠ '{') (hcolon : c ≠ ':') :
    beforeBody? layout text = none := by
  simp only [beforeBody?, h]
  split
  next heq => exact absurd (List.cons.inj heq).1 hbrace
  next heq => exact absurd (List.cons.inj heq).1 hcolon
  next => rfl

theorem carries_beforeBody? (hbehind : '{' ∉ behind') (text : Text) :
    Carries behind behind' (beforeBody? layout (text ++ behind))
      (beforeBody? layout (text ++ behind')) := by
  cases hdrop : text.dropWhile layout.isGap with
  | nil =>
      apply opens_beforeBody?.carries _ hbehind
      intro hmem
      have hgap := List.dropWhile_eq_nil_iff.mp hdrop '{' hmem
      cases layout <;> exact absurd hgap (by decide)
  | cons c rest =>
      have hold := Text.dropWhile_append_of_cons hdrop behind
      have hnew := Text.dropWhile_append_of_cons hdrop behind'
      by_cases hother : c ≠ '{' ∧ c ≠ ':'
      · rw [beforeBody?_eq_none hold hother.1 hother.2, beforeBody?_eq_none hnew hother.1 hother.2]
        exact .nothing
      · simp only [beforeBody?, hold, hnew, Text.takeWhile_append_of_cons hdrop]
        by_cases hbrace : c = '{'
        · subst hbrace
          exact .here _ rest
        · obtain rfl : c = ':' := by
            by_contra hcolon
            exact hother ⟨hbrace, hcolon⟩
          exact (carries_initializers? hbehind rest).map _

/-- The words of qualifiers hold no brace, so a brace behind them decides what they are. -/
theorem afterQualifier?_append_behind {text word : Text} (htext : '{' ∈ text) (hword : '{' ∉ word)
    (behind : Text) :
    afterQualifier? (text ++ behind) word = (afterQualifier? text word).map (· ++ behind) := by
  have hdrop : (text ++ behind).dropLead? word = (text.dropLead? word).map (· ++ behind) := by
    cases hlead : text.dropLead? word with
    | some rest =>
        rw [Option.map_some, Text.dropLead?_eq_some_iff, ← List.append_assoc,
          Text.dropLead?_eq_some_iff.mp hlead]
    | none =>
        rw [Option.map_none, Option.eq_none_iff_forall_ne_some]
        intro rest hrest
        rcases List.append_eq_append_iff.mp (Text.dropLead?_eq_some_iff.mp hrest) with
          ⟨inner, hsplit, -⟩ | ⟨inner, hsplit, -⟩
        · rw [Text.dropLead?_eq_some_iff.mpr hsplit.symm] at hlead
          cases hlead
        · exact hword (hsplit ▸ List.mem_append_left _ htext)
  rw [afterQualifier?, afterQualifier?, hdrop]
  cases hlead : text.dropLead? word with
  | none => rfl
  | some rest =>
      have hrest : rest ≠ [] := by
        rintro rfl
        rw [← Text.dropLead?_eq_some_iff.mp hlead, List.append_nil] at htext
        exact hword htext
      rw [Option.map_some, Option.filter_some, Option.filter_some,
        List.head?_append_of_ne_nil _ hrest]
      split <;> rfl

theorem not_mem_qualifierWords : ∀ word ∈ qualifierWords, '{' ∉ word := by
  decide

theorem not_isGap_brace : layout.isGap '{' = false := by
  cases layout <;> decide

theorem qualifier?_append_behind {text : Text} (htext : '{' ∈ text) (behind : Text) :
    qualifier? layout (text ++ behind) =
      (qualifier? layout text).map fun parts => (parts.1, parts.2 ++ behind) := by
  have hbrace : '{' ∈ text.dropWhile layout.isGap := by
    rw [← List.takeWhile_append_dropWhile (p := layout.isGap) (l := text)] at htext
    refine (List.mem_append.mp htext).resolve_left fun hmem => ?_
    have hgap := List.mem_takeWhile_imp hmem
    rw [not_isGap_brace] at hgap
    cases hgap
  obtain ⟨c, rest, hdrop⟩ := List.exists_cons_of_ne_nil (List.ne_nil_of_mem hbrace)
  have hbehind : (text ++ behind).dropWhile layout.isGap =
      text.dropWhile layout.isGap ++ behind := by
    rw [Text.dropWhile_append_of_cons hdrop, hdrop, List.cons_append]
  rw [qualifier?, qualifier?, hbehind, Text.takeWhile_append_of_cons hdrop, List.map_findSome?]
  have hsame : ∀ word ∈ qualifierWords,
      afterQualifier? (text.dropWhile layout.isGap ++ behind) word =
        (afterQualifier? (text.dropWhile layout.isGap) word).map (· ++ behind) :=
    fun word hmem =>
      afterQualifier?_append_behind hbrace (not_mem_qualifierWords word hmem) behind
  revert hsame
  generalize qualifierWords = words
  intro hsame
  induction words with
  | nil => rfl
  | cons word others ih =>
      have hothers := ih fun other hmem => hsame other (List.mem_cons_of_mem _ hmem)
      rw [List.findSome?_cons, List.findSome?_cons, hothers, hsame word List.mem_cons_self]
      cases hword : afterQualifier? (text.dropWhile layout.isGap) word <;> simp [hword]

theorem mem_of_qualifier? {text rest : Text} {qualifier : Qualifier}
    (h : qualifier? layout text = some (qualifier, rest)) (htext : '{' ∈ text) : '{' ∈ rest := by
  obtain ⟨happend, hword⟩ := qualifier?_append h
  obtain ⟨word, -, hfound⟩ := List.exists_of_findSome?_eq_some h
  obtain ⟨rest', -, heq⟩ := Option.map_eq_some_iff.mp hfound
  obtain ⟨rfl, rfl⟩ := Prod.mk.inj heq
  rw [← happend, Qualifier.text] at htext
  refine (List.mem_append.mp htext).resolve_left fun hmem => ?_
  rcases List.mem_append.mp hmem with hgap | hletter
  · have hblank := List.mem_takeWhile_imp hgap
    rw [not_isGap_brace] at hblank
    cases hblank
  · exact not_mem_qualifierWords word hword hletter

/-- Qualifiers end in front of the first brace, so what comes behind it plays no part. -/
theorem qualifiers_append_behind {text : Text} (htext : '{' ∈ text) (behind : Text) :
    qualifiers layout (text ++ behind) =
      ((qualifiers layout text).1, (qualifiers layout text).2 ++ behind) := by
  induction hlength : text.length using Nat.strongRecOn generalizing text with
  | ind length ih =>
      subst hlength
      have hnext := @qualifier?_append_behind layout text htext behind
      cases hqualifier : qualifier? layout text with
      | none =>
          rw [hqualifier, Option.map_none] at hnext
          rw [qualifiers_of_none hqualifier, qualifiers_of_none hnext]
      | some parts =>
          obtain ⟨qualifier, rest⟩ := parts
          rw [hqualifier, Option.map_some] at hnext
          have hrest := ih rest.length (length_lt_of_qualifier? hqualifier)
            (mem_of_qualifier? hqualifier htext) rfl
          rw [qualifiers_of_qualifier? hqualifier, qualifiers_of_qualifier? hnext, hrest]

/-- Reads qualifiers, and on up to the brace of a body. -/
def upToBody? (layout : Layout) : Text → Option ((List Qualifier × Text) × Text) :=
  andThen (fun text => some (qualifiers layout text)) fun list =>
    andMake (fun closing => (list, closing)) (beforeBody? layout)

theorem leaves_qualifiers : Leaves fun text => some (qualifiers layout text) := by
  intro text list rest hread
  obtain ⟨rfl, rfl⟩ := Prod.mk.inj (Option.some.inj hread)
  exact ⟨_, qualifiers_append layout text⟩

theorem opens_upToBody? : Opens (upToBody? layout) :=
  leaves_qualifiers.opens fun _ => opens_beforeBody?.make _

theorem carries_upToBody? (hbehind : '{' ∉ behind') (text : Text) :
    Carries behind behind' (upToBody? layout (text ++ behind))
      (upToBody? layout (text ++ behind')) := by
  -- If the text holds no brace, the qualifiers may go on behind it, but the body begins there too.
  by_cases htext : '{' ∈ text
  · have hbody : Carries behind behind'
        (beforeBody? layout ((qualifiers layout text).2 ++ behind))
        (beforeBody? layout ((qualifiers layout text).2 ++ behind')) :=
      carries_beforeBody? hbehind _
    rw [upToBody?, andThen, andThen, Option.bind_some, Option.bind_some,
      qualifiers_append_behind htext, qualifiers_append_behind htext]
    exact hbody.map _
  · exact opens_upToBody?.carries htext hbehind

end Pieces

namespace Pattern

variable {pattern : Pattern}

/-- The pieces of a signature without a return type. -/
def ofPieces (name gap params : Text) (ending : List Qualifier × Text) : Parts :=
  { result := [], name, gap, params, qualifiers := ending.1, closing := ending.2 }

/-- Reads the parentheses of a parameter list with what is in front of them, and then up to the
brace of a body. -/
theorem afterName?_eq_andThen (name text : Text) :
    pattern.afterName? name text =
      andThen (upTo? pattern.layout.isGap '(') (fun gap =>
        andThen (params? pattern.layout false) fun params =>
          andMake (ofPieces name gap params) (upToBody? pattern.layout)) text := by
  rw [afterName?, andThen, upTo?]
  split
  next inner hinner =>
    rw [hinner]
    simp only [if_true, Option.bind_some, andThen]
    cases params? pattern.layout false inner with
    | none => rfl
    | some parts =>
        rw [Option.bind_some, andMake, upToBody?, andThen, Option.bind_some, andMake,
          Option.map_map]
        rfl
  next hnone =>
    cases hdrop : text.dropWhile pattern.layout.isGap with
    | nil => rfl
    | cons c others =>
        have hc : c ≠ '(' := fun heq => hnone others (heq ▸ hdrop)
        simp [hc]

theorem opens_params? (name gap : Text) :
    Opens (andThen (params? pattern.layout false) fun params =>
      andMake (ofPieces name gap params) (upToBody? pattern.layout)) :=
  (leaves_params? false).opens fun _ => opens_upToBody?.make _

theorem opens_afterName? (name : Text) : Opens (pattern.afterName? name) := by
  intro text found rest h
  rw [afterName?_eq_andThen] at h
  exact (leaves_upTo? _ _).opens (opens_params? name) _ _ _ h

theorem carries_afterName? (hbehind : '{' ∉ behind') (name text : Text) :
    Carries behind behind' (pattern.afterName? name (text ++ behind))
      (pattern.afterName? name (text ++ behind')) := by
  rw [afterName?_eq_andThen, afterName?_eq_andThen]
  refine (settled_upTo? _ _ text).carries (opens_params? name) ?_ hbehind
  intro gap inner _
  refine (settled_params? false inner).carries (fun params => opens_upToBody?.make _) ?_ hbehind
  intro params rest _
  exact (carries_upToBody? hbehind rest).map (ofPieces name gap params)

/-- Reads a signature on from its name, which is read in one of three ways. -/
def fromName? (pattern : Pattern) (text : Text) : Option (Parts × Text) :=
  (Name.starts pattern.layout.isGap text).findSome? fun start =>
    pattern.afterName? start.1 start.2

theorem fromName?_eq_or (text : Text) :
    pattern.fromName? text =
      (andThen Name.plain? pattern.afterName? text).or
        ((andThen (Name.operator? pattern.layout.isGap Name.callSymbol?) pattern.afterName?
            text).or
          (andThen (Name.operator? pattern.layout.isGap Name.symbolRun?) pattern.afterName?
            text)) := by
  have hor : ∀ (reading : Option (Text × Text)) (others : List (Option (Text × Text))),
      ((reading :: others).filterMap id).findSome? (fun start =>
        pattern.afterName? start.1 start.2) =
      (reading.bind fun start => pattern.afterName? start.1 start.2).or
        ((others.filterMap id).findSome? fun start => pattern.afterName? start.1 start.2) := by
    intro reading others
    cases reading with
    | none => rfl
    | some start =>
        rw [List.filterMap_cons_some (f := id) rfl, List.findSome?_cons, Option.bind_some]
        cases pattern.afterName? start.1 start.2 <;> rfl
  rw [fromName?, Name.starts, hor, hor, hor]
  simp [andThen]

theorem opens_fromName? : Opens pattern.fromName? := by
  intro text found rest h
  obtain ⟨⟨name, others⟩, hmem, hname⟩ := List.exists_of_findSome?_eq_some h
  exact (opens_afterName? name _ _ _ hname).trans ⟨name, Name.append_of_mem_starts hmem⟩

theorem carries_fromName? (hbehind : '{' ∉ behind') (text : Text) :
    Carries behind behind' (pattern.fromName? (text ++ behind))
      (pattern.fromName? (text ++ behind')) := by
  have hname : ∀ {read : Text → Option (Text × Text)}, Settled read text →
      Carries behind behind' (andThen read pattern.afterName? (text ++ behind))
        (andThen read pattern.afterName? (text ++ behind')) := fun hread =>
    hread.carries opens_afterName? (fun name rest _ => carries_afterName? hbehind name rest)
      hbehind
  rw [fromName?_eq_or, fromName?_eq_or]
  refine (hname (settled_plain? text)).or (.or ?_ ?_)
  · exact hname (settled_operator? leaves_callSymbol? settled_callSymbol? text)
  · exact hname (settled_operator? leaves_symbolRun? settled_symbolRun? text)

/-- Splits a text after the owner and its colons, if a word begins or ends at the text. -/
def owner? (pattern : Pattern) (before : Option Char) (text : Text) : Option (Unit × Text) :=
  (Text.afterWord? pattern.qualifier before text).map fun rest => ((), rest)

theorem settled_owner? (before : Option Char) (text : Text) :
    Settled (pattern.owner? before) text := by
  have hcases : ∀ text, pattern.owner? before text =
      if Text.atBoundary before text then word? pattern.qualifier text else none := by
    intro text
    rw [owner?, Text.afterWord?, word?]
    split <;> rfl
  cases text with
  | nil =>
      refine settled_nil fun text found rest hread => ?_
      rw [hcases] at hread
      exact leaves_word? _ _ _ _ (Option.ite_none_right_eq_some.mp hread).2
  | cons c rest =>
      by_cases hboundary : Text.atBoundary before (c :: rest) = true
      · apply (settled_word? pattern.qualifier (c :: rest)).of_eq
        intro behind
        exact (hcases _).trans (if_pos hboundary)
      · apply settled_none
        intro behind
        exact (hcases _).trans (if_neg hboundary)

theorem atOwner?_eq_andThen (before : Option Char) (text : Text) :
    pattern.atOwner? before text =
      andThen (pattern.owner? before) (fun _ => pattern.fromName?) text := by
  rw [atOwner?, andThen, owner?]
  cases Text.afterWord? pattern.qualifier before text <;> rfl

theorem carries_atOwner? (hbehind : '{' ∉ behind') (before : Option Char) (text : Text) :
    Carries behind behind' (pattern.atOwner? before (text ++ behind))
      (pattern.atOwner? before (text ++ behind')) := by
  rw [atOwner?_eq_andThen, atOwner?_eq_andThen]
  exact (settled_owner? before text).carries (fun _ => opens_fromName?)
    (fun _ rest _ => carries_fromName? hbehind rest) hbehind

theorem carries_extendResult {old new : Option (Parts × Text)} (lead : Text)
    (h : Carries behind behind' old new) :
    Carries behind behind' (old.map (extendResult lead)) (new.map (extendResult lead)) :=
  h.map fun parts => { parts with result := lead ++ parts.result }

theorem opens_inResult? (before : Char) : Opens (pattern.inResult? before) :=
  fun _ _ _ h => ⟨_, inResult?_append h⟩

theorem inResult?_cons (before c : Char) (rest : Text) :
    pattern.inResult? before (c :: rest) =
      (pattern.atOwner? (some before) (c :: rest)).or
        (if pattern.isResultChar c then (pattern.inResult? c rest).map (extendResult [c])
          else none) := by
  rw [inResult?]
  cases pattern.atOwner? (some before) (c :: rest) <;> rfl

theorem carries_inResult? (hbehind : '{' ∉ behind') (before : Char) (text : Text) :
    Carries behind behind' (pattern.inResult? before (text ++ behind))
      (pattern.inResult? before (text ++ behind')) := by
  induction text generalizing before with
  | nil => exact (opens_inResult? before).carries List.not_mem_nil hbehind
  | cons c rest ih =>
      rw [List.cons_append, List.cons_append, inResult?_cons, inResult?_cons]
      apply (carries_atOwner? hbehind (some before) (c :: rest)).or
      split
      · exact carries_extendResult [c] (ih c)
      · exact .nothing

theorem opens_withResult? : Opens pattern.withResult? :=
  fun _ _ _ h => ⟨_, withResult?_append h⟩

theorem carries_withResult? (hbehind : '{' ∉ behind') (text : Text) :
    Carries behind behind' (pattern.withResult? (text ++ behind))
      (pattern.withResult? (text ++ behind')) := by
  cases text with
  | nil => exact opens_withResult?.carries List.not_mem_nil hbehind
  | cons c rest =>
      rw [List.cons_append, List.cons_append, withResult?, withResult?]
      split
      · exact carries_extendResult [c] (carries_inResult? hbehind c rest)
      · exact .nothing

theorem opens_match? : Opens pattern.match? :=
  fun _ _ _ h => ⟨_, match?_append h⟩

theorem match?_eq_or (text : Text) :
    pattern.match? text =
      ((pattern.withResult? (text.dropWhile isLineBlank)).or
        (pattern.atOwner? (text.takeWhile isLineBlank).getLast?
          (text.dropWhile isLineBlank))).map (extendResult (text.takeWhile isLineBlank)) := by
  rw [match?]
  cases pattern.withResult? (text.dropWhile isLineBlank) <;> rfl

/-- A signature that ends in front of what stands behind a text is found whatever stands there, and
without a brace there no other one is. -/
theorem carries_match? (hbehind : '{' ∉ behind') (text : Text) :
    Carries behind behind' (pattern.match? (text ++ behind))
      (pattern.match? (text ++ behind')) := by
  cases hdrop : text.dropWhile isLineBlank with
  | nil =>
      apply opens_match?.carries _ hbehind
      intro hmem
      exact absurd (List.dropWhile_eq_nil_iff.mp hdrop '{' hmem) (by decide)
  | cons c rest =>
      simp only [match?_eq_or, Text.dropWhile_append_of_cons hdrop,
        Text.takeWhile_append_of_cons hdrop]
      apply carries_extendResult
      apply Carries.or
      · exact carries_withResult? hbehind (c :: rest)
      · exact carries_atOwner? hbehind _ (c :: rest)

end Pattern

end MemberSplit.Signature
