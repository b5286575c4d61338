import MemberSplit.Signature.Layout
import MemberSplit.Signature.Name

/-!
# Signatures of member functions

A definition of a member function of `owner` starts with

    [return type] owner::name(params) [qualifiers] [: initializers] {

at the start of a line. `Pattern.match?` reads one signature from the start of a text,
`Pattern.signatures` finds all of a text, and `Pattern.mentions` finds each place where `owner::`
stands, whether or not a signature is there.
-/

namespace MemberSplit.Signature

/-- Whose members are looked for, and how their signatures may lie on their lines. -/
structure Pattern where
  owner : Text
  layout : Layout
  deriving DecidableEq, Repr

/-- The pieces of a signature as they are written. -/
structure Parts where
  /-- Blanks and the return type, up to the owner. -/
  result : Text
  name : Text
  /-- What separates the name from the parameters. -/
  gap : Text
  /-- The text between the parentheses. -/
  params : Text
  qualifiers : List Qualifier
  /-- The initializers with their colon, and what separates them from the brace. -/
  closing : Text
  deriving DecidableEq, Repr

/-- The owner with the colons that stand between it and a member. -/
def Pattern.qualifier (pattern : Pattern) : Text :=
  pattern.owner ++ "::".toList

/-- The characters of a signature, up to the brace of the body. -/
def Parts.text (parts : Parts) (pattern : Pattern) : Text :=
  parts.result ++ pattern.qualifier ++ parts.name ++ parts.gap ++ '(' :: parts.params ++
    ')' :: qualifiersText parts.qualifiers ++ parts.closing

/-- Whether one of the qualifiers, read as words between white space, is `const`. -/
def Parts.isConst (parts : Parts) : Bool :=
  (qualifiersText parts.qualifiers).words.contains "const".toList

namespace Pattern

/-- A character that a return type can hold after its first. -/
def isResultChar (pattern : Pattern) (c : Char) : Bool :=
  isWordChar c || pattern.layout.isGap c || "*&:<>,.".toList.contains c

/-- Reads a signature on from a name that has been read: the pieces, without a return type, and
the text after the brace. -/
def afterName? (pattern : Pattern) (name rest : Text) : Option (Parts × Text) :=
  match rest.dropWhile pattern.layout.isGap with
  | '(' :: inner =>
    match params? pattern.layout false inner with
    | none => none
    | some (params, afterParams) =>
      let (qualifiers, afterQualifiers) := qualifiers pattern.layout afterParams
      (beforeBody? pattern.layout afterQualifiers).map fun (closing, body) =>
        ({ result := [], name, gap := rest.takeWhile pattern.layout.isGap, params, qualifiers,
           closing }, body)
  | _ => none

/-- Reads a signature that starts with its owner, where `before` is the character in front. -/
def atOwner? (pattern : Pattern) (before : Option Char) (text : Text) : Option (Parts × Text) :=
  match Text.afterWord? pattern.qualifier before text with
  | none => none
  | some rest =>
    (Name.starts pattern.layout.isGap rest).findSome? fun (name, others) =>
      pattern.afterName? name others

/-- Puts characters in front of the return type. -/
def extendResult (lead : Text) (found : Parts × Text) : Parts × Text :=
  ({ found.1 with result := lead ++ found.1.result }, found.2)

/-- Reads a signature whose return type has begun, giving the return type as few characters as
possible. -/
def inResult? (pattern : Pattern) (before : Char) (text : Text) : Option (Parts × Text) :=
  match pattern.atOwner? (some before) text with
  | some found => some found
  | none =>
    match text with
    | [] => none
    | c :: rest =>
      if pattern.isResultChar c then (inResult? pattern c rest).map (extendResult [c]) else none

/-- Reads a signature with a nonempty return type. -/
def withResult? (pattern : Pattern) : Text → Option (Parts × Text)
  | [] => none
  | c :: rest =>
    if isIdentStart c || c == ':' then (pattern.inResult? c rest).map (extendResult [c]) else none

/-- Reads the signature that a text at the start of a line starts with: its pieces, and the text
after its brace. A return type is sought before the signature is read without one. -/
def match? (pattern : Pattern) (text : Text) : Option (Parts × Text) :=
  let blanks := text.takeWhile isLineBlank
  let rest := text.dropWhile isLineBlank
  let found := match pattern.withResult? rest with
    | some found => some found
    | none => pattern.atOwner? blanks.getLast? rest
  found.map (extendResult blanks)

theorem afterName?_append {pattern : Pattern} {name rest body : Text} {parts : Parts}
    (h : pattern.afterName? name rest = some (parts, body)) :
    parts.result = [] ∧
      parts.text pattern ++ '{' :: body = pattern.qualifier ++ name ++ rest := by
  unfold afterName? at h
  split at h
  next inner hinner =>
    split at h
    · simp at h
    next params afterParams hparams =>
      simp only [Option.map_eq_some_iff, Prod.exists, Prod.mk.injEq] at h
      obtain ⟨closing, body', hclosing, rfl, rfl⟩ := h
      refine ⟨rfl, ?_⟩
      simp only [Parts.text, List.nil_append, List.append_assoc, List.cons_append]
      rw [beforeBody?_append hclosing, qualifiers_append, params?_append hparams, ← hinner,
        List.takeWhile_append_dropWhile]
  next => simp at h

theorem atOwner?_append {pattern : Pattern} {before : Option Char} {text body : Text}
    {parts : Parts} (h : pattern.atOwner? before text = some (parts, body)) :
    parts.text pattern ++ '{' :: body = text := by
  unfold atOwner? at h
  split at h
  · simp at h
  next rest hrest =>
    obtain ⟨⟨name, others⟩, hmem, hname⟩ := List.exists_of_findSome?_eq_some h
    rw [(afterName?_append hname).2, List.append_assoc, Name.append_of_mem_starts hmem]
    unfold Text.afterWord? at hrest
    split at hrest
    · exact Text.dropLead?_eq_some_iff.mp hrest
    · simp at hrest

theorem extendResult_append {pattern : Pattern} {lead body text : Text} {parts : Parts}
    (h : parts.text pattern ++ '{' :: body = text) :
    (extendResult lead (parts, body)).1.text pattern ++ '{' :: body = lead ++ text := by
  rw [← h]
  simp [extendResult, Parts.text]

theorem inResult?_append {pattern : Pattern} {before : Char} {text body : Text} {parts : Parts}
    (h : pattern.inResult? before text = some (parts, body)) :
    parts.text pattern ++ '{' :: body = text := by
  induction text generalizing before parts body with
  | nil =>
    unfold inResult? at h
    split at h
    next found hfound =>
      obtain rfl := Option.some.inj h
      exact atOwner?_append hfound
    next => simp at h
  | cons c rest ih =>
    unfold inResult? at h
    split at h
    next found hfound =>
      obtain rfl := Option.some.inj h
      exact atOwner?_append hfound
    next =>
      simp only at h
      split at h
      · obtain ⟨⟨parts', body'⟩, hrest, heq⟩ := Option.map_eq_some_iff.mp h
        obtain ⟨rfl, rfl⟩ := Prod.mk.inj heq
        exact extendResult_append (ih hrest)
      · simp at h

theorem withResult?_append {pattern : Pattern} {text body : Text} {parts : Parts}
    (h : pattern.withResult? text = some (parts, body)) :
    parts.text pattern ++ '{' :: body = text := by
  unfold withResult? at h
  split at h
  · simp at h
  · split at h
    · obtain ⟨⟨parts', body'⟩, hrest, heq⟩ := Option.map_eq_some_iff.mp h
      obtain ⟨rfl, rfl⟩ := Prod.mk.inj heq
      exact extendResult_append (inResult?_append hrest)
    · simp at h

/-- A signature, its brace and the text after the brace make up the text. -/
theorem match?_append {pattern : Pattern} {text body : Text} {parts : Parts}
    (h : pattern.match? text = some (parts, body)) :
    parts.text pattern ++ '{' :: body = text := by
  simp only [match?, Option.map_eq_some_iff] at h
  obtain ⟨⟨parts', body'⟩, hfound, heq⟩ := h
  obtain ⟨rfl, rfl⟩ := Prod.mk.inj heq
  have hrest : parts'.text pattern ++ '{' :: body' = text.dropWhile isLineBlank := by
    split at hfound
    next found hresult =>
      obtain rfl := Option.some.inj hfound
      exact withResult?_append hresult
    next => exact atOwner?_append hfound
  refine (extendResult_append hrest).trans ?_
  exact List.takeWhile_append_dropWhile

theorem length_lt_of_match? {pattern : Pattern} {text body : Text} {parts : Parts}
    (h : pattern.match? text = some (parts, body)) : body.length < text.length := by
  rw [← match?_append h]
  simp only [List.length_append, List.length_cons]
  omega

end Pattern

end MemberSplit.Signature

namespace MemberSplit

/-- A signature found in a text. -/
structure Signature where
  /-- Byte offset of the line on which the signature starts. -/
  start : Nat
  /-- The text from there up to the brace of the body. -/
  head : Text
  /-- The text after the brace of the body. -/
  afterBrace : Text
  parts : Signature.Parts
  deriving DecidableEq, Repr

namespace Signature

/-- Byte offset of the brace that opens the body. -/
def openingBrace (signature : Signature) : Nat :=
  signature.start + signature.head.byteLength

/-- The return type, without the white space around it. -/
def returnType (signature : Signature) : Text :=
  signature.parts.result.trim

/-- The name, without the white space that an operator name can hold. -/
def name (signature : Signature) : Text :=
  signature.parts.name.withoutBlanks

/-- The text between the parentheses. -/
def paramList (signature : Signature) : Text :=
  signature.parts.params

/-- Whether the function is marked `const`. -/
def isConst (signature : Signature) : Bool :=
  signature.parts.isConst

namespace Pattern

/-- The signatures of a text that begins at `offset`, where `atLineStart` says whether a line
begins there. After a signature, the search goes on behind its brace. -/
def signaturesFrom (pattern : Pattern) (offset : Nat) (atLineStart : Bool) (text : Text) :
    List Signature :=
  match text with
  | [] => []
  | c :: rest =>
    match _h : if atLineStart then pattern.match? (c :: rest) else none with
    | some (parts, afterBrace) =>
      let head := parts.text pattern
      { start := offset, head, afterBrace, parts } ::
        signaturesFrom pattern (offset + head.byteLength + 1) false afterBrace
    | none => signaturesFrom pattern (offset + c.utf8Size) (c == '\n') rest
termination_by text.length
decreasing_by
  · split at _h
    · exact length_lt_of_match? _h
    · simp at _h
  · simp

/-- The signatures of a text, in the order in which they stand. -/
def signatures (pattern : Pattern) (text : Text) : List Signature :=
  pattern.signaturesFrom 0 true text

/-- Byte offsets of the mentions of the owner in a text that begins at `offset`, after the
character `before`, where the first `pending` characters belong to a mention already. -/
def mentionsFrom (pattern : Pattern) (offset : Nat) (before : Option Char) :
    (pending : Nat) → Text → List Nat
  | _, [] => []
  | pending, c :: rest =>
    let further (pending : Nat) :=
      mentionsFrom pattern (offset + c.utf8Size) (some c) pending rest
    match pending with
    | pending + 1 => further pending
    | 0 =>
      if (Text.afterWord? pattern.qualifier before (c :: rest)).isSome then
        offset :: further (pattern.qualifier.length - 1)
      else further 0

/-- Byte offsets of the places where the owner stands before `::`. -/
def mentions (pattern : Pattern) (text : Text) : List Nat :=
  pattern.mentionsFrom 0 none 0 text

end Pattern

end Signature

end MemberSplit
