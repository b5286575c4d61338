import MemberSplit.Proofs.Extraction.Spans
import MemberSplit.Proofs.Signature.Surroundings
import MemberSplit.Proofs.Signature.Written

/-!
# Definitions that are written as usual are extracted

A source of remarks and then definitions, with white space and comments between them, gives back
just these definitions. The search is silent outside the signatures, each signature is read back at
the start of its line, and each body ends where it ends on its own.
-/

namespace MemberSplit

open Signature (Parts Pattern)

/-- A definition as it is written, and what stands behind it. -/
structure WrittenMember where
  parts : Parts
  /-- The text from the opening to the closing brace, both included. -/
  body : Text
  gap : Text
  deriving DecidableEq, Repr

namespace WrittenMember

/-- The characters of a definition and of the gap behind it. -/
def text (pattern : Pattern) (member : WrittenMember) : Text :=
  member.parts.text pattern ++ member.body ++ member.gap

/-- Definitions in a row. -/
def spell (pattern : Pattern) (members : List WrittenMember) : Text :=
  members.flatMap (text pattern)

/-- The pieces of the signature are written as usual, the body ends with the brace that closes it,
the gap is filler up to the end of a line, and body and gap mention the owner nowhere. -/
structure IsWritten (member : WrittenMember) (extractor : Extractor) : Prop where
  parts : member.parts.IsWritten extractor.pattern
  body : Block.closingBrace? member.body 0 extractor.mode = some (member.body.byteLength - 1)
  bodyUnmentioned : extractor.pattern.mentions member.body = []
  gap : Lexical.IsFillerText member.gap
  gapEnd : member.gap.getLast? = some '\n'
  gapUnmentioned : extractor.pattern.mentions member.gap = []

/-- The signatures of definitions in a row, from an offset on. -/
def signaturesAt (pattern : Pattern) (offset : Nat) : List WrittenMember → List Signature
  | [] => []
  | member :: rest =>
    { start := offset
      head := member.parts.text pattern
      afterBrace := member.body.tail ++ (member.gap ++ spell pattern rest)
      parts := member.parts } ::
        signaturesAt pattern (offset + (member.text pattern).byteLength) rest

/-- What is asked of a definition that is read back. -/
def reading (pattern : Pattern) (member : WrittenMember) : Text × Text × Text × Text :=
  (member.parts.name, member.parts.params, member.parts.text pattern, member.body)

variable {extractor : Extractor} {member : WrittenMember} {members : List WrittenMember}

theorem spell_cons (pattern : Pattern) (member : WrittenMember) (rest : List WrittenMember) :
    spell pattern (member :: rest) =
      member.parts.text pattern ++ (member.body ++ (member.gap ++ spell pattern rest)) := by
  simp [spell, text]

theorem byteLength_text (pattern : Pattern) (member : WrittenMember) :
    (member.text pattern).byteLength = (member.parts.text pattern).byteLength +
      member.body.byteLength + member.gap.byteLength := by
  rw [text, Text.byteLength_append, Text.byteLength_append]

namespace IsWritten

/-- A body is a brace and the block behind it. -/
theorem exists_inner (h : member.IsWritten extractor) :
    ∃ inner, member.body = '{' :: inner ∧
      Block.split? extractor.mode inner = some (inner, []) := by
  have hclose := h.body
  have hdrop : member.body.dropBytes 0 = member.body := Text.dropBytes_append [] member.body
  unfold Block.closingBrace? at hclose
  rw [hdrop] at hclose
  split at hclose
  next rest hbody =>
    obtain ⟨⟨inner, behind⟩, hsplit, hlength⟩ := Option.map_eq_some_iff.mp hclose
    have hrest := Block.splitFrom?_append hsplit
    have hnil : behind = [] := by
      apply Text.byteLength_eq_zero_iff.mp
      have hbrace : Char.utf8Size '{' = 1 := by decide
      rw [hbody, Text.byteLength, hbrace, ← hrest, Text.byteLength_append] at hlength
      simp only at hlength
      omega
    rw [hnil, List.append_nil] at hrest
    refine ⟨inner, by rw [hbody, hrest], ?_⟩
    rw [hrest, hsplit, hrest, hnil]
  next => cases hclose

/-- The search goes on behind a definition and its gap, at the start of a line. -/
theorem signaturesFrom_text (hproper : extractor.pattern.IsProper)
    (h : member.IsWritten extractor) (offset : Nat) (behind : Text) :
    extractor.pattern.signaturesFrom offset true
        (member.parts.text extractor.pattern ++ (member.body ++ (member.gap ++ behind))) =
      { start := offset
        head := member.parts.text extractor.pattern
        afterBrace := member.body.tail ++ (member.gap ++ behind)
        parts := member.parts } ::
        extractor.pattern.signaturesFrom
          (offset + (member.text extractor.pattern).byteLength) true behind := by
  obtain ⟨inner, hbody, hsplit⟩ := h.exists_inner
  have hmatch := Pattern.match?_of_isWritten hproper h.parts (inner ++ (member.gap ++ behind))
  have hunmentioned := Pattern.unmentioned_of_mentions h.bodyUnmentioned
  have hstop : extractor.pattern.isResultChar '}' = false :=
    Pattern.isResultChar_eq_false (by decide) (by decide) (by decide)
  have hlast := Block.getLast?_of_splitFrom? hsplit
  rw [hbody] at hunmentioned
  have hinner : extractor.pattern.Barren false inner :=
    Pattern.barren_of_unmentioned hproper hlast hstop (fun hfalse => by cases hfalse)
      hunmentioned.2
  have hgap : extractor.pattern.Barren false member.gap :=
    Pattern.barren_of_isFillerText hproper h.gap (.inr h.gapEnd) (fun hfalse => by cases hfalse)
      (Pattern.unmentioned_of_mentions h.gapUnmentioned)
  have hbehindInner : Pattern.lineStartsBehind false inner = false := by
    rw [Pattern.lineStartsBehind, hlast]
    rfl
  have hbehindGap : Pattern.lineStartsBehind false member.gap = true := by
    rw [Pattern.lineStartsBehind, h.gapEnd]
    rfl
  have hbrace : Char.utf8Size '{' = 1 := by decide
  have hoffset : offset + (member.parts.text extractor.pattern).byteLength + 1 +
      Text.byteLength inner + member.gap.byteLength =
        offset + (member.text extractor.pattern).byteLength := by
    rw [byteLength_text, hbody, Text.byteLength, hbrace]
    omega
  rw [hbody, List.cons_append, Pattern.signaturesFrom_of_match? hmatch,
    hinner.signaturesFrom_append, hbehindInner, hgap.signaturesFrom_append, hbehindGap, hoffset]
  rfl

end IsWritten

theorem signaturesFrom_spell (hproper : extractor.pattern.IsProper)
    (h : ∀ member ∈ members, member.IsWritten extractor) (offset : Nat) :
    extractor.pattern.signaturesFrom offset true (spell extractor.pattern members) =
      signaturesAt extractor.pattern offset members := by
  induction members generalizing offset with
  | nil =>
      rw [spell, List.flatMap_nil, Pattern.signaturesFrom]
      rfl
  | cons member rest ih =>
      rw [spell_cons, (h member List.mem_cons_self).signaturesFrom_text hproper,
        ih fun other hmem => h other (List.mem_cons_of_mem _ hmem)]
      rfl

/-- What a candidate tells of its definition, if it has been extracted. -/
def readingOf (candidate : Candidate) : Option (Text × Text × Text × Text) :=
  candidate.definition?.map fun definition =>
    (definition.name, definition.paramList, definition.head, definition.body)

/-- Behind the definition that was extracted last, each definition is extracted. -/
theorem map_readingOf_candidatesFrom (h : ∀ member ∈ members, member.IsWritten extractor)
    (source : Text) {offset : Nat} {previousStop : Option Nat}
    (hstop : previousStop.getD 0 ≤ offset) :
    (extractor.candidatesFrom source previousStop
      (signaturesAt extractor.pattern offset members)).map readingOf =
        members.map fun member => some (member.reading extractor.pattern) := by
  induction members generalizing offset previousStop with
  | nil => rfl
  | cons member rest ih =>
      have hmember := h member List.mem_cons_self
      have hrest := fun other hmem => h other (List.mem_cons_of_mem _ hmem)
      obtain ⟨inner, hbody, hsplit⟩ := hmember.exists_inner
      have hblock := Block.splitFrom?_congr hsplit (member.gap ++ spell extractor.pattern rest)
      have hname : member.parts.name.withoutBlanks = member.parts.name :=
        Name.withoutBlanks_of_isPlain hmember.parts.name
      have hlength := byteLength_text extractor.pattern member
      simp only [signaturesAt, Extractor.candidatesFrom, if_neg (Nat.not_lt.mpr hstop)]
      rw [hbody, List.tail_cons, Block.split?, hblock]
      simp only [List.map_cons]
      rw [ih hrest]
      · simp only [readingOf, Candidate.definition?, Option.map_some, reading, Signature.name,
          Signature.paramList, hname, hbody]
      · simp only [Option.getD_some, Definition.stop, Definition.bodyOffset]
        rw [hbody] at hlength
        omega

/-- A candidate that tells of its definition has been extracted. -/
theorem fate_eq_of_map_readingOf {pattern : Pattern} {candidates : List Candidate}
    (h : candidates.map readingOf = members.map fun member => some (member.reading pattern)) :
    ∀ candidate ∈ candidates, ∃ definition, candidate.fate = .extracted definition := by
  intro candidate hmem
  have hreading := List.mem_map_of_mem (f := readingOf) hmem
  rw [h] at hreading
  obtain ⟨member, -, hsome⟩ := List.mem_map.mp hreading
  cases hfate : candidate.fate with
  | extracted definition => exact ⟨definition, rfl⟩
  | nested =>
      rw [readingOf, Candidate.definition?, hfate] at hsome
      cases hsome
  | unterminated =>
      rw [readingOf, Candidate.definition?, hfate] at hsome
      cases hsome

/-- No mention begins in a body or in the gap behind it. -/
theorem IsWritten.mentionsFrom_append (hproper : extractor.pattern.IsProper)
    (h : member.IsWritten extractor) (offset : Nat) (before : Option Char) (behind : Text) :
    extractor.pattern.mentionsFrom offset before 0 (member.body ++ (member.gap ++ behind)) =
      extractor.pattern.mentionsFrom (offset + member.body.byteLength + member.gap.byteLength)
        (some '\n') 0 behind := by
  obtain ⟨inner, hbody, hsplit⟩ := h.exists_inner
  have hlast : member.body.getLast? = some '}' := by
    rw [hbody, List.getLast?_cons, Block.getLast?_of_splitFrom? hsplit]
    rfl
  have hunmentioned := Pattern.unmentioned_of_mentions h.bodyUnmentioned
  rw [hbody] at hunmentioned
  have hbodyNone : extractor.pattern.Unmentioned before member.body := by
    rw [hbody]
    refine ⟨Pattern.afterWord?_eq_none_of_not_isPrefix ?_, hunmentioned.2⟩
    exact Pattern.not_isPrefix_of_not_mem (hproper.not_mem_of_ne (by decide) (by decide))
  have hgapNone : extractor.pattern.Unmentioned (some '}') member.gap :=
    (Pattern.unmentioned_of_mentions h.gapUnmentioned).congr (by decide)
  have hbodyEnd : ∀ c, member.body.getLast? = some c → c ∉ extractor.pattern.qualifier := by
    intro c hc
    rw [hlast] at hc
    rw [← Option.some.inj hc]
    exact hproper.not_mem_of_ne (by decide) (by decide)
  have hgapEnd : ∀ c, member.gap.getLast? = some c → c ∉ extractor.pattern.qualifier := by
    intro c hc
    rw [h.gapEnd] at hc
    rw [← Option.some.inj hc]
    exact hproper.not_mem_of_ne (by decide) (by decide)
  rw [Pattern.mentionsFrom_append hbodyEnd hbodyNone, hlast, Option.some_or,
    Pattern.mentionsFrom_append hgapEnd hgapNone, h.gapEnd, Option.some_or]

/-- A mention among definitions in a row belongs to a signature. -/
theorem exists_of_mem_mentionsFrom (hproper : extractor.pattern.IsProper)
    (h : ∀ member ∈ members, member.IsWritten extractor) {offset place : Nat}
    {before : Option Char}
    (hmem : place ∈ extractor.pattern.mentionsFrom offset before 0
      (spell extractor.pattern members)) :
    ∃ signature ∈ signaturesAt extractor.pattern offset members,
      signature.start ≤ place ∧ place ≤ signature.openingBrace := by
  induction members generalizing offset before with
  | nil => cases hmem
  | cons member rest ih =>
      have hmember := h member List.mem_cons_self
      have hrest := fun other hmem => h other (List.mem_cons_of_mem _ hmem)
      obtain ⟨inner, hbody, -⟩ := hmember.exists_inner
      rw [spell_cons, hbody, List.cons_append] at hmem
      have hbrace : '{' ∉ extractor.pattern.qualifier :=
        hproper.not_mem_of_ne (by decide) (by decide)
      rcases Pattern.mem_mentionsFrom_cases hbrace (Nat.zero_le _) hmem with hinside | hbehind
      · refine ⟨_, List.mem_cons_self, hinside.1, ?_⟩
        exact Nat.le_of_lt hinside.2
      · rw [← List.cons_append, ← hbody, hmember.mentionsFrom_append hproper] at hbehind
        have hlength := byteLength_text extractor.pattern member
        rw [show offset + (member.parts.text extractor.pattern).byteLength +
          member.body.byteLength + member.gap.byteLength =
            offset + (member.text extractor.pattern).byteLength by omega] at hbehind
        obtain ⟨signature, hsignature, hplace⟩ := ih hrest hbehind
        exact ⟨signature, List.mem_cons_of_mem _ hsignature, hplace⟩

end WrittenMember

/-- What is extracted is what was written, and there is nothing else to tell. -/
structure Extraction.IsComplete (extraction : Extraction) (pattern : Pattern)
    (members : List WrittenMember) : Prop where
  /-- Names, parameters, signatures and bodies are as they were written. -/
  definitions : extraction.definitions.map (fun definition =>
    (definition.name, definition.paramList, definition.head, definition.body)) =
      members.map (WrittenMember.reading pattern)
  candidates : extraction.candidates.length = members.length
  nested : extraction.nested = 0
  unterminated : extraction.unterminated = 0
  unrecognized : extraction.unrecognized = []

/-- If every candidate tells of the definition that was written, nothing is missing. -/
theorem Extraction.isComplete_of_map_readingOf {extraction : Extraction} {pattern : Pattern}
    {members : List WrittenMember}
    (h : extraction.candidates.map WrittenMember.readingOf =
      members.map fun member => some (member.reading pattern))
    (hnone : extraction.unrecognized = []) : extraction.IsComplete pattern members := by
  have hfates := WrittenMember.fate_eq_of_map_readingOf h
  refine
    { definitions := ?_
      candidates := ?_
      nested := ?_
      unterminated := ?_
      unrecognized := hnone }
  · calc extraction.definitions.map _
      _ = extraction.candidates.filterMap WrittenMember.readingOf := List.map_filterMap ..
      _ = (extraction.candidates.map WrittenMember.readingOf).filterMap id := by
        rw [List.filterMap_map, Function.id_comp]
      _ = members.map (WrittenMember.reading pattern) := by
        rw [h, List.filterMap_map]
        exact congrFun List.filterMap_eq_map' members
  · have hlength := congrArg List.length h
    rwa [List.length_map, List.length_map] at hlength
  · apply List.countP_eq_zero.mpr
    intro candidate hmem
    obtain ⟨definition, hfate⟩ := hfates candidate hmem
    simp [hfate]
  · apply List.countP_eq_zero.mpr
    intro candidate hmem
    obtain ⟨definition, hfate⟩ := hfates candidate hmem
    simp [hfate]

namespace Extractor

variable {extractor : Extractor} {lines : List Text} {members : List WrittenMember}

theorem signatures_closeLines_append (hproper : extractor.pattern.IsProper)
    (hlines : ∀ line ∈ lines, Lexical.IsLeadLine line)
    (hmembers : ∀ member ∈ members, member.IsWritten extractor) :
    extractor.pattern.signatures (Aggregator.closeLines lines ++
      WrittenMember.spell extractor.pattern members) =
        WrittenMember.signaturesAt extractor.pattern (Aggregator.closeLines lines).byteLength
          members := by
  obtain ⟨hbarren, hstart⟩ := Pattern.barren_closeLines hproper hlines
  rw [Pattern.signatures, hbarren.signaturesFrom_append, hstart,
    WrittenMember.signaturesFrom_spell hproper hmembers, Nat.zero_add]

/-- Behind lines without a mention, each mention belongs to a signature. -/
theorem exists_of_mem_mentions (hproper : extractor.pattern.IsProper)
    (hlines : ∀ line ∈ lines, Lexical.IsLeadLine line)
    (hlead : extractor.pattern.mentions (Aggregator.closeLines lines) = [])
    (hmembers : ∀ member ∈ members, member.IsWritten extractor) {place : Nat}
    (hmem : place ∈ extractor.pattern.mentions (Aggregator.closeLines lines ++
      WrittenMember.spell extractor.pattern members)) :
    ∃ signature ∈ WrittenMember.signaturesAt extractor.pattern
        (Aggregator.closeLines lines).byteLength members,
      signature.start ≤ place ∧ place ≤ signature.openingBrace := by
  have hend : ∀ c, (Aggregator.closeLines lines).getLast? = some c →
      c ∉ extractor.pattern.qualifier := by
    intro c hc
    have hstart := (Pattern.barren_closeLines hproper hlines).2
    rw [Pattern.lineStartsBehind, hc] at hstart
    rw [eq_of_beq hstart]
    exact hproper.not_mem_of_ne (by decide) (by decide)
  rw [Pattern.mentions, Pattern.mentionsFrom_append hend
    (Pattern.unmentioned_of_mentions hlead)] at hmem
  have hfound := WrittenMember.exists_of_mem_mentionsFrom hproper hmembers hmem
  rwa [Nat.zero_add] at hfound

theorem unrecognizedLines_eq_nil {source : Text} {candidates : List Candidate}
    (h : ∀ place ∈ extractor.pattern.mentions source,
      ∃ signature ∈ candidates.map Candidate.signature,
        signature.start ≤ place ∧ place ≤ signature.openingBrace) :
    extractor.unrecognizedLines source candidates = [] := by
  have hcovered : ((extractor.pattern.mentions source).filter fun offset =>
      !candidates.any fun candidate => candidate.covers offset) = [] := by
    rw [List.filter_eq_nil_iff]
    intro place hplace
    obtain ⟨signature, hsignature, hstart, hstop⟩ := h place hplace
    obtain ⟨candidate, hcandidate, rfl⟩ := List.mem_map.mp hsignature
    have hcovers : candidate.covers place = true := by
      simp [Candidate.covers, hstart, hstop]
    rw [List.any_eq_true.mpr ⟨candidate, hcandidate, hcovers⟩]
    decide
  rw [unrecognizedLines, hcovered]
  rfl

/-- Definitions that are written as usual, behind lines of remarks, are all extracted. -/
theorem isComplete_extract (howner : Config.isQualifiedName extractor.pattern.owner = true)
    (hlines : ∀ line ∈ lines, Lexical.IsLeadLine line)
    (hlead : extractor.pattern.mentions (Aggregator.closeLines lines) = [])
    (hmembers : ∀ member ∈ members, member.IsWritten extractor) :
    (extractor.extract (Aggregator.closeLines lines ++
      WrittenMember.spell extractor.pattern members)).IsComplete extractor.pattern members := by
  have hproper := Pattern.isProper_of_isQualifiedName howner
  have hsignatures := signatures_closeLines_append hproper hlines hmembers
  apply Extraction.isComplete_of_map_readingOf
  · simp only [extract, candidates, hsignatures]
    exact WrittenMember.map_readingOf_candidatesFrom hmembers _ (Nat.zero_le _)
  · apply unrecognizedLines_eq_nil
    intro place hplace
    rw [candidates, map_signature_candidatesFrom, hsignatures]
    exact exists_of_mem_mentions hproper hlines hlead hmembers hplace

theorem isComplete_extract_two_members :
    let extractor : Extractor := ⟨⟨"Foo", .wrapped⟩, .lexical⟩
    let run : WrittenMember :=
      { parts :=
          { result := "void ", name := "run", gap := [], params := "std::function<void(int)> f",
            qualifiers := [⟨" ", "const"⟩], closing := "\n" }
        body := "{ if (f) { f(1); } }"
        gap := "\n\n// then\n" }
    let make : WrittenMember :=
      { parts :=
          { result := [], name := "Foo", gap := [], params := "int a", qualifiers := [],
            closing := " : a_(a), b_{1} " }
        body := "{}"
        gap := "\n" }
    (extractor.extract (Aggregator.closeLines ["#include <foo>", ""] ++
      WrittenMember.spell extractor.pattern [run, make])).IsComplete extractor.pattern
        [run, make] := by
  intro extractor run make
  have hlines : ∀ line ∈ (["#include <foo>", ""] : List Text), Lexical.IsLeadLine line := by
    intro line hmem
    rcases List.mem_cons.mp hmem with rfl | hblank
    · exact ⟨by decide, by decide⟩
    · rw [List.mem_singleton.mp hblank]
      exact ⟨by decide, by decide⟩
  have hitems : ∀ item ∈ ([⟨" ", "a_", false, "a", []⟩, ⟨" ", "b_", true, "1", " "⟩] :
      List Signature.Initializer), item.IsWritten .wrapped := by
    intro item hmem
    rcases List.mem_cons.mp hmem with rfl | hlast
    · exact ⟨by decide, by decide, by decide, by decide⟩
    · rw [List.mem_singleton.mp hlast]
      exact ⟨by decide, by decide, by decide, by decide⟩
  have hrun : run.IsWritten extractor :=
    { parts :=
        { result := ⟨[], "void ", rfl, rfl, ⟨rfl, by decide, by decide, by decide⟩⟩
          name := by decide
          gap := rfl
          params := @Signature.NestsOnce.pair _ "std::function<void" "int" "> f" (by decide)
            (by decide) (.run (by decide))
          qualifiers := ⟨by decide, by decide, by decide⟩
          closing := .gap (by decide) }
      body := by decide
      bodyUnmentioned := by decide
      gap := .filler rfl (.filler rfl
        (@Lexical.IsFillerText.lineComment " then" [] (by decide) .nil))
      gapEnd := by decide
      gapUnmentioned := by decide }
  have hmake : make.IsWritten extractor :=
    { parts :=
        { result := ⟨[], [], rfl, rfl, ⟨rfl, rfl, rfl, rfl⟩⟩
          name := by decide
          gap := rfl
          params := .run (by decide)
          qualifiers := ⟨by decide, by decide, by decide⟩
          closing := @Signature.IsClosing.initializers _ " " _ (by decide) hitems }
      body := by decide
      bodyUnmentioned := by decide
      gap := .filler rfl .nil
      gapEnd := by decide
      gapUnmentioned := by decide }
  apply isComplete_extract (by decide) hlines (by decide)
  intro member hmem
  rcases List.mem_cons.mp hmem with rfl | hlast
  · exact hrun
  · rw [List.mem_singleton.mp hlast]
    exact hmake

end Extractor

end MemberSplit
