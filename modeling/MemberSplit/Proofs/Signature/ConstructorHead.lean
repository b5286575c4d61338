import MemberSplit.Proofs.Signature.BraceGroup
import MemberSplit.Proofs.Signature.Front
import MemberSplit.Proofs.Signature.Parts
import MemberSplit.Proofs.Signature.Written

/-!
# Constructors with initializers in braces

A constructor with initializers is found with the brace of its body exactly if the braces of its
initializers are flat, so that none of them is taken for that brace.
-/

namespace MemberSplit.Signature

variable {layout : Layout}

/-- An initializer ends behind its arguments, and no character of it ends the initializers. -/
structure Initializer.IsDelimited (layout : Layout) (initializer : Initializer) : Prop where
  after : initializer.after.all layout.isGap = true
  chars : ∀ c ∈ initializer.text, c ≠ ';' ∧ layout.isBreak c = false

theorem Initializer.exists_group_eq (initializer : Initializer) :
    ∃ front bracket, initializer.group = front ++ [bracket] ∧
      isWordChar bracket = false ∧ isLineBlank bracket = false := by
  unfold Initializer.group
  cases initializer.isBraced with
  | true => exact ⟨'{' :: initializer.args, '}', rfl, by decide⟩
  | false => exact ⟨'(' :: initializer.args, ')', rfl, by decide⟩

/-- Behind the bracket of the arguments comes no word. -/
theorem Initializer.IsDelimited.not_endsInWord {initializer : Initializer}
    (h : initializer.IsDelimited layout) : ¬EndsInWord initializer.text := by
  intro hword
  obtain ⟨front, bracket, hgroup, hbracket⟩ := initializer.exists_group_eq
  have htext : initializer.text =
      (initializer.before ++ initializer.member ++ front) ++ bracket :: initializer.after := by
    simp [Initializer.text, hgroup]
  rw [htext] at hword
  obtain ⟨lead, c, blanks, hafter, hc, -⟩ := hword.of_append hbracket
  have hgap := List.all_eq_true.mp h.after c (by simp [hafter])
  rw [Layout.isWordChar_of_isGap hgap] at hc
  cases hc

/-- A constructor up to the brace of its body. -/
structure ConstructorHead where
  name : Text
  /-- What separates the name from the parameters. -/
  gap : Text
  params : Text
  /-- What separates the parameters from the colon. -/
  space : Text
  initializers : List Initializer
  deriving DecidableEq, Repr

namespace ConstructorHead

/-- The initializers with the commas between them. -/
def list (head : ConstructorHead) : Text :=
  Text.joinWith [','] (head.initializers.map Initializer.text)

/-- The pieces of the signature, if the initializers are read as the given text. -/
def parts (head : ConstructorHead) (taken : Text) : Parts where
  result := []
  name := head.name
  gap := head.gap
  params := head.params
  qualifiers := []
  closing := head.space ++ ':' :: taken

/-- The characters of the constructor. -/
def text (head : ConstructorHead) (pattern : Pattern) : Text :=
  (head.parts head.list).text pattern

/-- The pieces in front of the initializers are written as usual. Of the initializers it is known
where they end. -/
structure IsWritten (head : ConstructorHead) (layout : Layout) : Prop where
  name : Name.isPlain head.name = true
  gap : head.gap.all layout.isGap = true
  params : NestsOnce layout head.params
  space : head.space.all layout.isGap = true
  initializers : ∀ initializer ∈ head.initializers, initializer.IsDelimited layout

variable {head : ConstructorHead} {taken body rest : Text}

theorem IsWritten.list_chars (h : head.IsWritten layout) :
    ∀ c ∈ head.list, c ≠ ';' ∧ layout.isBreak c = false := by
  apply Text.forall_mem_joinWith
  · exact List.forall_mem_singleton.mpr (by cases layout <;> decide)
  · intro part hmem
    obtain ⟨initializer, hinitializer, rfl⟩ := List.mem_map.mp hmem
    exact (h.initializers initializer hinitializer).chars

theorem not_endsInWord_joinWith {list : List Initializer}
    (h : ∀ initializer ∈ list, initializer.IsDelimited layout) :
    ¬EndsInWord (Text.joinWith [','] (list.map Initializer.text)) := by
  induction list with
  | nil =>
      rintro ⟨lead, c, blanks, htext, -⟩
      simp [Text.joinWith] at htext
  | cons first rest ih =>
      obtain ⟨hfirst, hrest⟩ := List.forall_mem_cons.mp h
      cases rest with
      | nil => simpa [Text.joinWith] using hfirst.not_endsInWord
      | cons next others =>
          intro hword
          rw [List.map_cons, List.map_cons, Text.joinWith_cons_cons, List.append_assoc] at hword
          exact ih hrest (hword.of_append (by decide))

theorem afterName?_of_initializers? {pattern : Pattern} (h : head.IsWritten pattern.layout)
    (hread : initializers? pattern.layout rest = some (taken, body)) :
    pattern.afterName? head.name
        (head.gap ++ '(' :: (head.params ++ ')' :: (head.space ++ ':' :: rest))) =
      some (head.parts taken, body) := by
  have hopen : ('(' :: (head.params ++ ')' :: (head.space ++ ':' :: rest))).head?.any
      pattern.layout.isGap = false := Layout.isGap_eq_false (by decide)
  have hcolon : (':' :: rest).head?.any pattern.layout.isGap = false :=
    Layout.isGap_eq_false (by decide)
  have hgap := List.all_eq_true.mp h.gap
  have hspace := List.all_eq_true.mp h.space
  have hnone : qualifier? pattern.layout (head.space ++ ':' :: rest) = none :=
    qualifier?_eq_none h.space (by decide) (Layout.isGap_eq_false (by decide)) rest
  have hbody : beforeBody? pattern.layout (head.space ++ ':' :: rest) =
      some (head.space ++ ':' :: taken, body) := by
    rw [beforeBody?, Text.takeWhile_run hspace hcolon, Text.dropWhile_run hspace hcolon]
    simp [hread]
  rw [Pattern.afterName?, Text.dropWhile_run hgap hopen, Text.takeWhile_run hgap hopen]
  simp only [params?_of_nestsOnce h.params, qualifiers_of_none hnone, hbody, Option.map_some]
  rfl

/-- The constructor is read from the start of a line, with the initializers that are read. -/
theorem match?_of_initializers? {pattern : Pattern} (hproper : pattern.IsProper)
    (h : head.IsWritten pattern.layout)
    (hread : initializers? pattern.layout (head.list ++ '{' :: rest) = some (taken, body)) :
    pattern.match? (head.text pattern ++ '{' :: rest) = some (head.parts taken, body) := by
  have htext : head.text pattern ++ '{' :: rest = pattern.qualifier ++ (head.name ++ (head.gap ++
      '(' :: (head.params ++ ')' :: (head.space ++ ':' :: (head.list ++ '{' :: rest))))) := by
    simp [text, parts, Parts.text, qualifiersText]
  have hname := afterName?_of_initializers? h hread
  have howner : pattern.atOwner? none (head.text pattern ++ '{' :: rest) =
      some (head.parts taken, body) := by
    rw [htext]
    have hbehind := Pattern.head?_behind_name h.gap
      (head.params ++ ')' :: (head.space ++ ':' :: (head.list ++ '{' :: rest)))
    exact Pattern.atOwner?_of_afterName? hproper h.name hbehind rfl hname
  have hresult : pattern.withResult? (head.text pattern ++ '{' :: rest) = none := by
    rw [htext]
    exact Pattern.withResult?_eq_none_of_owner h.name h.gap hproper _
  have hstart : (head.text pattern ++ '{' :: rest).head?.any isLineBlank = false := by
    obtain ⟨c, others, hqualifier, hc⟩ := hproper.qualifier_eq
    rw [htext, hqualifier]
    exact isLineBlank_of_isIdentStart hc
  have htake := Text.takeWhile_run (List.forall_mem_nil _) hstart
  have hdrop := Text.dropWhile_run (List.forall_mem_nil _) hstart
  rw [List.nil_append] at htake hdrop
  rw [Pattern.match?, htake, hdrop, hresult]
  simp only [List.getLast?_nil, howner]
  rfl

/-- A constructor in a source is found, with the brace of its body, exactly if the braces of its
initializers are flat and no signature that begins in front of it reaches into it. -/
theorem exists_signature_iff {pattern : Pattern}
    (howner : Config.isQualifiedName pattern.owner = true) (h : head.IsWritten pattern.layout)
    {before : Text} (hline : before.EndsLine) (rest : Text) :
    (∃ signature ∈ pattern.signatures (before ++ (head.text pattern ++ '{' :: rest)),
        signature.start = before.byteLength ∧
          signature.openingBrace = before.byteLength + (head.text pattern).byteLength) ↔
      HasFlatBraces pattern.layout head.list ∧
        ∀ signature ∈ pattern.signatures (before ++ (head.text pattern ++ '{' :: rest)),
          signature.start < before.byteLength → signature.openingBrace < before.byteLength := by
  have hproper := Pattern.isProper_of_isQualifiedName howner
  constructor
  · rintro ⟨signature, hmem, hstart, hbrace⟩
    obtain ⟨hhead, hmatch⟩ := Pattern.match?_of_mem_signatures hmem hstart
    obtain ⟨⟨taken, body⟩, hread⟩ :=
      Option.isSome_iff_exists.mp (isSome_initializers? h.list_chars rest)
    have hparts : signature.parts = head.parts taken := by
      rw [match?_of_initializers? hproper h hread] at hmatch
      exact (Prod.mk.inj (Option.some.inj hmatch)).1.symm
    refine ⟨?_, fun other hother hlt => ?_⟩
    · have hlength : taken.byteLength = head.list.byteLength := by
        rw [Signature.openingBrace, hhead, hparts, hstart] at hbrace
        simp [text, parts, Parts.text, Text.byteLength_append, Text.byteLength] at hbrace
        omega
      rw [← (Text.append_inj (initializers?_append hread) hlength).1]
      exact hasFlatBraces_of_initializers? hread
    · rw [← hstart]
      exact Pattern.openingBrace_lt_start hother hmem (hstart ▸ hlt)
  · rintro ⟨hflat, hfront⟩
    have hread := initializers?_of_hasFlatBraces hflat h.list_chars
      (not_endsInWord_joinWith h.initializers) rest
    have hmatch := match?_of_initializers? hproper h hread
    have hend : pattern.EndBefore (head.text pattern ++ '{' :: rest) 0 true before := by
      intro signature hmem
      rw [Nat.zero_add]
      exact hfront signature hmem
    obtain ⟨earlier, hearlier⟩ := hend.exists_append
    have hbehind : Pattern.lineStartsBehind true before = true := by
      rcases hline with rfl | hlast
      · rfl
      · rw [Pattern.lineStartsBehind, hlast]
        rfl
    rw [hbehind, Nat.zero_add, Pattern.signaturesFrom_of_match? hmatch] at hearlier
    have hmem : ⟨before.byteLength, head.text pattern, rest, head.parts head.list⟩ ∈
        pattern.signatures (before ++ (head.text pattern ++ '{' :: rest)) := by
      rw [Pattern.signatures, hearlier]
      exact List.mem_append_right _ List.mem_cons_self
    exact ⟨_, hmem, rfl, rfl⟩

/-- A brace in the braces of a member is taken for the brace of the body; one behind a word in
parentheses is not. -/
theorem exists_signature_iff_nested :
    let pattern : Pattern := ⟨"Foo", .wrapped⟩
    let flat : ConstructorHead := ⟨"Foo", "", "int v", "\n  ",
      [⟨" ", "base_", true, "v", ""⟩, ⟨"\n  ", "items_", false, "List \x7b1\x7d", "\n"⟩]⟩
    let nested : ConstructorHead := ⟨"Foo", "", "", " ", [⟨" ", "m_", true, "\x7b1, 2\x7d", " "⟩]⟩
    (∃ signature ∈ pattern.signatures (flat.text pattern ++ "\x7b\n\x7d".toList),
        signature.start = 0 ∧
          signature.openingBrace = (flat.text pattern).byteLength) ∧
      HasFlatBraces .wrapped flat.list ∧
      (pattern.signatures (nested.text pattern ++ "\x7b\x7d".toList)).map
        Signature.openingBrace = [15] ∧
      ¬HasFlatBraces .wrapped nested.list := by
  intro pattern flat nested
  have hafter : ∀ initializer ∈ flat.initializers ++ nested.initializers,
      initializer.after.all Layout.wrapped.isGap = true := by decide
  have hchars : ∀ initializer ∈ flat.initializers ++ nested.initializers,
      initializer.text.all (fun c => c != ';' && !Layout.wrapped.isBreak c) = true := by decide
  have hdelimited : ∀ initializer ∈ flat.initializers ++ nested.initializers,
      initializer.IsDelimited .wrapped := fun initializer hmem =>
    ⟨hafter initializer hmem, by simpa using hchars initializer hmem⟩
  have hflat : flat.IsWritten pattern.layout := ⟨by decide, by decide, .run (by decide),
    by decide, fun initializer hmem => hdelimited initializer (List.mem_append_left _ hmem)⟩
  have hnested : nested.IsWritten pattern.layout := ⟨by decide, by decide, .run (by decide),
    by decide, fun initializer hmem => hdelimited initializer (List.mem_append_right _ hmem)⟩
  have howner : Config.isQualifiedName pattern.owner = true := by decide
  have hline : Text.EndsLine [] := .inl rfl
  have hread : (pattern.signatures (flat.text pattern ++ "\x7b\n\x7d".toList)).map
      (fun signature => (signature.start, signature.openingBrace)) =
        [(0, (flat.text pattern).byteLength)] := by decide +kernel
  have hread' : (pattern.signatures (nested.text pattern ++ "\x7b\x7d".toList)).map
      Signature.openingBrace = [15] := by decide +kernel
  have hfound : ∃ signature ∈ pattern.signatures (flat.text pattern ++ "\x7b\n\x7d".toList),
      signature.start = 0 ∧ signature.openingBrace = (flat.text pattern).byteLength := by
    obtain ⟨signature, hmem, heq⟩ := List.mem_map.mp (hread ▸ List.mem_singleton_self _)
    exact ⟨signature, hmem, Prod.mk.inj heq⟩
  refine ⟨hfound, ?_, hread', fun hnot => ?_⟩
  · refine ((exists_signature_iff howner hflat hline ['\n', '}']).mp ?_).1
    simpa using hfound
  · obtain ⟨signature, hmem, -, hbrace⟩ :=
      (exists_signature_iff howner hnested hline ['}']).mpr ⟨hnot, by simp⟩
    have hmem' := hread' ▸ List.mem_map_of_mem hmem
    rw [hbrace] at hmem'
    exact absurd hmem' (by decide)

end ConstructorHead

end MemberSplit.Signature
