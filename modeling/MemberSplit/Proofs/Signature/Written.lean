import MemberSplit.Proofs.Signature.Initializers
import MemberSplit.Proofs.Signature.Silence

/-!
# Signatures that are read back

A signature that is written with the usual pieces is read at the start of its line with just these
pieces, up to the brace of its body. The owner is found at the first place where the return type can
end, for neither the return type nor the name mentions it again.
-/

namespace MemberSplit.Signature

/-- What stands between the blanks of a line and the owner: nothing, or a type that begins with a
word, mentions the owner nowhere and is apart from it. -/
structure IsReturnType (pattern : Pattern) (type : Text) : Prop where
  start : type.head?.all isIdentStart = true
  chars : type.all pattern.isResultChar = true
  unmentioned : pattern.mentions type = []
  apart : type.getLast?.all (fun c => !isWordChar c && c != ':') = true

/-- The pieces of a signature are written as usual. -/
structure Parts.IsWritten (parts : Parts) (pattern : Pattern) : Prop where
  result : ∃ indent type, parts.result = indent ++ type ∧ indent.all isLineBlank = true ∧
    IsReturnType pattern type
  name : Name.isPlain parts.name = true
  gap : parts.gap.all pattern.layout.isGap = true
  params : NestsOnce pattern.layout parts.params
  qualifiers : AreApart pattern.layout parts.qualifiers
  closing : IsClosing pattern.layout parts.closing

namespace Pattern

variable {pattern : Pattern} {parts : Parts} {before : Option Char} {type body rest : Text}

/-- The characters of a signature behind the name, with the brace and what follows it. -/
def afterName (parts : Parts) (body : Text) : Text :=
  parts.gap ++ '(' :: (parts.params ++ ')' :: (qualifiersText parts.qualifiers ++
    (parts.closing ++ '{' :: body)))

theorem text_append (parts : Parts) (body : Text) :
    parts.text pattern ++ '{' :: body =
      parts.result ++ (pattern.qualifier ++ (parts.name ++ afterName parts body)) := by
  simp [Parts.text, afterName]

theorem afterName?_of_isWritten (h : parts.IsWritten pattern) (body : Text) :
    pattern.afterName? parts.name (afterName parts body) =
      some ({ parts with result := [] }, body) := by
  obtain ⟨hends, hnone⟩ := h.closing.endsQualifier body
  have hstop : ('(' :: (parts.params ++ ')' :: (qualifiersText parts.qualifiers ++
      (parts.closing ++ '{' :: body)))).head?.any pattern.layout.isGap = false :=
    Layout.isGap_eq_false (by decide)
  have hgap := List.all_eq_true.mp h.gap
  rw [afterName?, afterName, Text.dropWhile_run hgap hstop, Text.takeWhile_run hgap hstop]
  simp only [params?_of_nestsOnce h.params, qualifiers_append_of_areApart h.qualifiers hends hnone,
    h.closing.beforeBody?, Option.map_some]

theorem head?_behind_name {gap : Text} (hgap : gap.all pattern.layout.isGap = true)
    (behind : Text) : (gap ++ '(' :: behind).head?.any isWordChar = false := by
  cases gap with
  | nil =>
      rw [List.nil_append, List.head?_cons, Option.any_some]
      decide
  | cons c others => exact Layout.isWordChar_of_isGap (Bool.and_eq_true_iff.mp hgap).1

theorem IsProper.qualifier_eq (hproper : pattern.IsProper) :
    ∃ c rest, pattern.qualifier = c :: rest ∧ isIdentStart c = true := by
  obtain ⟨c, rest, howner, hc⟩ := hproper.first
  exact ⟨c, rest ++ "::".toList, by rw [qualifier, howner, List.cons_append], hc⟩

/-- Behind a character of no word, the owner and what follows it are read. -/
theorem atOwner?_of_afterName? {name : Text} {found : Parts × Text} (hproper : pattern.IsProper)
    (hname : Name.isPlain name = true) (hrest : rest.head?.any isWordChar = false)
    (hbefore : Text.inWord before = false) (h : pattern.afterName? name rest = some found) :
    pattern.atOwner? before (pattern.qualifier ++ (name ++ rest)) = some found := by
  have hword : Text.afterWord? pattern.qualifier before (pattern.qualifier ++ (name ++ rest)) =
      some (name ++ rest) := by
    obtain ⟨c, others, hqualifier, hc⟩ := hproper.qualifier_eq
    have hboundary : Text.atBoundary before (pattern.qualifier ++ (name ++ rest)) = true := by
      rw [Text.atBoundary, hbefore, hqualifier]
      simp [Text.inWord, isWordChar_of_isIdentStart hc]
    rw [Text.afterWord?, if_pos hboundary, Text.dropLead?_eq_some_iff]
  have hplain := Name.plain?_append_of_isPlain hname hrest
  rw [atOwner?, hword]
  simp only [Name.starts, hplain, List.filterMap_cons, id, List.findSome?_cons, h]

theorem atOwner?_of_isWritten (hproper : pattern.IsProper) (h : parts.IsWritten pattern)
    (hbefore : Text.inWord before = false) (body : Text) :
    pattern.atOwner? before (pattern.qualifier ++ (parts.name ++ afterName parts body)) =
      some ({ parts with result := [] }, body) :=
  atOwner?_of_afterName? hproper h.name (head?_behind_name h.gap _) hbefore
    (afterName?_of_isWritten h body)

section Owner

variable {name gap : Text} (hname : Name.isPlain name = true)
  (hgap : gap.all pattern.layout.isGap = true)

include hname hgap

theorem not_mem_colon : ':' ∉ name ++ (gap ++ ['(']) := by
  intro hmem
  rcases List.mem_append.mp hmem with hname' | hbehind
  · rcases Name.isWordChar_or_of_isPlain hname ':' hname' with hword | htilde
    · exact absurd hword (by decide)
    · exact absurd htilde (by decide)
  · rcases List.mem_append.mp hbehind with hgap' | hopen
    · exact absurd (Layout.isBlank_of_isGap (List.all_eq_true.mp hgap ':' hgap')) (by decide)
    · exact absurd hopen (by decide)

/-- In front of the parameters, the owner is not mentioned again: a mention ends in a colon, and the
last colon there is that of the first mention. -/
theorem unmentioned_behind_owner {c : Char} (hqualifier : pattern.qualifier = c :: rest) :
    pattern.Unmentioned (some c) (rest ++ (name ++ (gap ++ ['(']))) := by
  apply unmentioned_of_not_isInfix
  rintro ⟨front, back, hagain⟩
  have hsame : (c :: front ++ pattern.owner ++ [':']) ++ ':' :: back =
      pattern.qualifier ++ (name ++ (gap ++ ['('])) := by
    have hcons := congrArg (List.cons c) hagain
    rw [hqualifier]
    simpa [qualifier] using hcons
  have hlength : pattern.qualifier.length ≤ (c :: front ++ pattern.owner ++ [':']).length := by
    rw [qualifier]
    simp only [List.length_append, List.length_cons, List.length_nil, String.length_toList]
    have htwo : "::".length = 2 := by decide
    omega
  apply not_mem_colon hname hgap
  rcases List.append_eq_append_iff.mp hsame with ⟨inner, hlonger, hrest⟩ | ⟨inner, -, hrest⟩
  · have hnil : inner = [] := by
      have := congrArg List.length hlonger
      rw [List.length_append] at this
      exact List.eq_nil_of_length_eq_zero (by omega)
    rw [hnil, List.nil_append] at hrest
    rw [← hrest]
    exact List.mem_cons_self
  · rw [hrest]
    exact List.mem_append_right _ List.mem_cons_self

/-- What begins with its owner has no return type. -/
theorem withResult?_eq_none_of_owner (hproper : pattern.IsProper) (behind : Text) :
    pattern.withResult? (pattern.qualifier ++ (name ++ (gap ++ '(' :: behind))) = none := by
  obtain ⟨c, rest, hqualifier, -⟩ := hproper.qualifier_eq
  have hstop : pattern.isResultChar '(' = false :=
    isResultChar_eq_false (by decide) (by decide) (by decide)
  have hlast : (c :: (rest ++ (name ++ (gap ++ ['('])))).getLast? = some '(' := by
    simp [List.getLast?_cons]
  have hnone := withResult?_eq_none_of_unmentioned hlast
    ⟨hproper.not_mem_qualifier hstop, hstop⟩ (unmentioned_behind_owner hname hgap hqualifier) behind
  rw [hqualifier]
  simpa using hnone

end Owner

theorem withResult?_of_isWritten (hproper : pattern.IsProper) (h : parts.IsWritten pattern)
    (body : Text) :
    pattern.withResult? (pattern.qualifier ++ (parts.name ++ afterName parts body)) = none :=
  withResult?_eq_none_of_owner h.name h.gap hproper _

/-- A return type is read up to the owner behind it. -/
theorem withResult?_append_of_isWritten {c : Char} (hproper : pattern.IsProper)
    (htype : IsReturnType pattern (c :: type)) (h : parts.IsWritten pattern) (body : Text) :
    pattern.withResult?
        (c :: (type ++ (pattern.qualifier ++ (parts.name ++ afterName parts body)))) =
      some ({ parts with result := c :: type }, body) := by
  have hlast : ∀ d, (c :: type).getLast? = some d → isWordChar d = false ∧ d ≠ ':' := by
    intro d hd
    have hapart := htype.apart
    rw [hd] at hapart
    simpa using hapart
  have hends : ∀ d, type.getLast? = some d → d ∉ pattern.qualifier := by
    intro d hd
    have hnot := hlast d (by rw [List.getLast?_cons, hd]; rfl)
    exact hproper.not_mem_of_ne hnot.1 hnot.2
  have hchars : ∀ d ∈ type, pattern.isResultChar d = true := fun d hd =>
    List.all_eq_true.mp htype.chars d (List.mem_cons_of_mem _ hd)
  have hunmentioned := (unmentioned_of_mentions htype.unmentioned).2
  have hbefore : Text.inWord (some (type.getLast?.getD c)) = false :=
    (hlast _ (List.getLast?_cons ..)).1
  have hstart : isIdentStart c = true := htype.start
  have howner : pattern.inResult? (type.getLast?.getD c)
      (pattern.qualifier ++ (parts.name ++ afterName parts body)) =
        some ({ parts with result := [] }, body) := by
    unfold inResult?
    rw [atOwner?_of_isWritten hproper h hbefore]
  rw [withResult?, if_pos (by rw [hstart, Bool.true_or]),
    inResult?_of_unmentioned hchars hends hunmentioned, howner]
  simp [extendResult]

/-- A signature is read back from the start of a line. -/
theorem match?_of_isWritten (hproper : pattern.IsProper) (h : parts.IsWritten pattern)
    (body : Text) : pattern.match? (parts.text pattern ++ '{' :: body) = some (parts, body) := by
  obtain ⟨indent, type, hresult, hindent, htype⟩ := h.result
  have hblanks := List.all_eq_true.mp hindent
  have hstart : (type ++ (pattern.qualifier ++ (parts.name ++ afterName parts body))).head?.any
      isLineBlank = false := by
    cases type with
    | nil =>
        obtain ⟨c, rest, hqualifier, hc⟩ := hproper.qualifier_eq
        rw [hqualifier]
        exact isLineBlank_of_isIdentStart hc
    | cons c rest => exact isLineBlank_of_isIdentStart htype.start
  rw [text_append, hresult, List.append_assoc, match?, Text.takeWhile_run hblanks hstart,
    Text.dropWhile_run hblanks hstart]
  cases type with
  | nil =>
      have howner := atOwner?_of_isWritten hproper h (inWord_getLast?_of_blanks hblanks) body
      rw [List.nil_append, withResult?_of_isWritten hproper h, howner]
      simp [extendResult, ← hresult]
  | cons c rest =>
      rw [List.cons_append, withResult?_append_of_isWritten hproper htype h]
      simp [extendResult, ← hresult]

end Pattern

end MemberSplit.Signature
