import MemberSplit.Proofs.Brace.Block
import MemberSplit.Proofs.Extraction.Spans
import MemberSplit.Proofs.Text.Line

/-!
# What an extraction says about its source

Every definition is read from a signature of the source and from the block behind it. Together with
the order in which the definitions are laid out, this fixes all that an extraction tells: spans,
texts, lines, and the fate of each candidate.
-/

namespace MemberSplit

namespace Definition

/-- The definition repeats what the signature says, and its body is the block behind it. -/
structure IsReadFrom (definition : Definition) (extractor : Extractor) (source : Text)
    (signature : Signature) : Prop where
  owner : definition.owner = extractor.pattern.owner
  name : definition.name = signature.name
  paramList : definition.paramList = signature.paramList
  isConst : definition.isConst = signature.isConst
  head : definition.head = signature.head
  body : ∃ inner rest, Block.split? extractor.mode signature.afterBrace = some (inner, rest) ∧
    definition.body = '{' :: inner
  start : definition.start = signature.start
  line : definition.line = source.lineAt signature.start

theorem start_lt_stop {definition : Definition} (h : definition.body ≠ []) :
    definition.start < definition.stop := by
  have hne : definition.body.byteLength ≠ 0 := by
    rwa [ne_eq, Text.byteLength_eq_zero_iff]
  simp only [stop, bodyOffset]
  omega

/-- Definitions that are laid out have spans in ascending order, and no two of them meet. -/
theorem LaidOut.pairwise {source : Text} {stop : Nat} {definitions : List Definition}
    (h : LaidOut source stop definitions)
    (hbody : ∀ definition ∈ definitions, definition.body ≠ []) :
    (∀ definition ∈ definitions, stop ≤ definition.start) ∧
      definitions.Pairwise fun earlier later =>
        earlier.start < later.start ∧ earlier.stop ≤ later.start := by
  induction definitions generalizing stop with
  | nil => simp
  | cons definition rest ih =>
      obtain ⟨hfirst, -, hrest⟩ := h
      obtain ⟨hbehind, hpairwise⟩ := ih hrest fun other hmem =>
        hbody other (List.mem_cons_of_mem _ hmem)
      have hspan := start_lt_stop (hbody definition List.mem_cons_self)
      refine ⟨?_, List.pairwise_cons.mpr ⟨?_, hpairwise⟩⟩
      · intro other hmem
        rcases List.mem_cons.mp hmem with rfl | hlater
        · exact hfirst
        · have := hbehind other hlater
          omega
      · intro other hmem
        have := hbehind other hmem
        omega

theorem LaidOut.standsIn {source : Text} {stop : Nat} {definitions : List Definition}
    (h : LaidOut source stop definitions) {definition : Definition}
    (hmem : definition ∈ definitions) : definition.StandsIn source := by
  induction definitions generalizing stop with
  | nil => simp at hmem
  | cons first rest ih =>
      obtain ⟨-, hfirst, hrest⟩ := h
      rcases List.mem_cons.mp hmem with rfl | hlater
      · exact hfirst
      · exact ih hrest hlater

end Definition

namespace Extractor

variable {extractor : Extractor} {source : Text}

theorem exists_isReadFrom_of_candidatesFrom {previousStop : Option Nat}
    {signatures : List Signature} {definition : Definition}
    (hmem : definition ∈ (extractor.candidatesFrom source previousStop signatures).filterMap
      Candidate.definition?) :
    ∃ signature ∈ signatures, definition.IsReadFrom extractor source signature := by
  induction signatures generalizing previousStop with
  | nil => simp [candidatesFrom] at hmem
  | cons signature others ih =>
      have hlater : ∀ {stop : Option Nat},
          definition ∈ (extractor.candidatesFrom source stop others).filterMap
            Candidate.definition? →
          ∃ signature' ∈ signature :: others,
            definition.IsReadFrom extractor source signature' := by
        intro stop hothers
        obtain ⟨signature', hsignature, hread⟩ := ih hothers
        exact ⟨signature', List.mem_cons_of_mem _ hsignature, hread⟩
      simp only [candidatesFrom] at hmem
      split at hmem
      next => exact hlater hmem
      next =>
        split at hmem
        next => exact hlater hmem
        next inner rest hsplit =>
          rcases List.mem_cons.mp hmem with rfl | hothers
          · refine ⟨signature, List.mem_cons_self, ?_⟩
            exact ⟨rfl, rfl, rfl, rfl, rfl, ⟨inner, rest, hsplit, rfl⟩, rfl, rfl⟩
          · exact hlater hothers

/-- Every definition is read from a signature of the source. -/
theorem exists_isReadFrom {definition : Definition}
    (hmem : definition ∈ (extractor.extract source).definitions) :
    ∃ signature ∈ extractor.pattern.signatures source,
      definition.IsReadFrom extractor source signature :=
  exists_isReadFrom_of_candidatesFrom hmem

/-- No comments are taken along as long as nothing has been extracted. -/
theorem comment_eq_nil_of_head? {signatures : List Signature} {definition : Definition}
    (h : ((extractor.candidatesFrom source none signatures).filterMap
      Candidate.definition?).head? = some definition) : definition.comment = [] := by
  induction signatures with
  | nil => simp [candidatesFrom] at h
  | cons signature others ih =>
      simp only [candidatesFrom] at h
      split at h
      next => exact ih h
      next =>
        split at h
        next => exact ih h
        next =>
          obtain rfl := Option.some.inj h
          rfl

end Extractor

/-- Whether the problem is a body that never closes. -/
def Diagnostic.isUnterminatedBody : Diagnostic → Bool
  | .unterminatedBody .. => true
  | _ => false

namespace Extraction

/-- Each candidate has just one of the three fates. -/
theorem length_candidates (extraction : Extraction) :
    extraction.candidates.length =
      extraction.definitions.length + extraction.nested + extraction.unterminated := by
  simp only [definitions, nested, unterminated]
  induction extraction.candidates with
  | nil => rfl
  | cons candidate rest ih =>
      cases hfate : candidate.fate <;>
        simp [Candidate.definition?, hfate, ih] <;> omega

/-- The warnings about bodies that never close, in the order of the source. -/
theorem filter_diagnostics (extraction : Extraction) :
    extraction.diagnostics.filter Diagnostic.isUnterminatedBody =
      (extraction.candidates.filter fun candidate => candidate.fate = .unterminated).map
        fun candidate => .unterminatedBody (extraction.nameOf candidate) candidate.line := by
  have hshapes : extraction.diagnostics =
      (extraction.candidates.filterMap fun candidate =>
        if candidate.fate = .unterminated then
          some (.unterminatedBody (extraction.nameOf candidate) candidate.line)
        else none) ++
      extraction.unrecognized.map fun shape =>
        .unrecognizedShape shape.1 (shape.2.excerpt Text.excerptLimit) := rfl
  have hothers : (extraction.unrecognized.map fun shape =>
      Diagnostic.unrecognizedShape shape.1 (shape.2.excerpt Text.excerptLimit)).filter
        Diagnostic.isUnterminatedBody = [] := by
    rw [List.filter_eq_nil_iff]
    intro diagnostic hmem
    obtain ⟨shape, -, rfl⟩ := List.mem_map.mp hmem
    simp [Diagnostic.isUnterminatedBody]
  rw [hshapes, List.filter_append, hothers, List.append_nil]
  induction extraction.candidates with
  | nil => rfl
  | cons candidate rest ih =>
      by_cases hfate : candidate.fate = .unterminated
      · simp only [List.filterMap_cons, hfate, if_true, List.filter_cons, decide_true,
          Diagnostic.isUnterminatedBody, List.map_cons, ih]
      · simp [hfate, ih]

/-- What an extraction says is true of its source. -/
structure IsFaithful (extraction : Extraction) (extractor : Extractor) (source : Text) : Prop where
  /-- The candidates are the signatures of the source, so that these are what is counted. -/
  matched : extraction.candidates.map Candidate.signature = extractor.pattern.signatures source
  located : ∀ candidate ∈ extraction.candidates,
    candidate.line = source.lineAt candidate.signature.start
  /-- Each definition is cut out of the source, from the start of a line on. -/
  stands : ∀ definition ∈ extraction.definitions, definition.StandsIn source
  inside : ∀ definition ∈ extraction.definitions,
    definition.start < definition.stop ∧ definition.stop ≤ source.byteLength
  disjoint : extraction.definitions.Pairwise fun earlier later =>
    earlier.start < later.start ∧ earlier.stop ≤ later.start
  span : ∀ definition ∈ extraction.definitions,
    definition.head ++ definition.body = source.slice definition.start definition.stop
  opens : ∀ definition ∈ extraction.definitions,
    (source.dropBytes definition.bodyOffset).head? = some '{'
  closes : ∀ definition ∈ extraction.definitions, definition.body.getLast? = some '}'
  /-- The braces of a body match without the rest of the source. -/
  balanced : ∀ definition ∈ extraction.definitions,
    Balance.ofText extractor.mode definition.body = .zero
  line : ∀ definition ∈ extraction.definitions,
    definition.line = 1 + (source.takeBytes definition.start).count '\n'
  firstComment : ∀ definition, extraction.definitions.head? = some definition →
    definition.comment = []
  counted : extraction.candidates.length =
    extraction.definitions.length + extraction.nested + extraction.unterminated
  /-- There is one warning for each body that never closes, and no other of its kind. -/
  warned : extraction.diagnostics.filter Diagnostic.isUnterminatedBody =
    (extraction.candidates.filter fun candidate => candidate.fate = .unterminated).map
      fun candidate => .unterminatedBody (extraction.nameOf candidate) candidate.line

end Extraction

namespace Extractor

variable {extractor : Extractor} {source : Text}

theorem slice_of_standsIn {definition : Definition}
    (h : definition.StandsIn source) :
    definition.stop ≤ source.byteLength ∧
      definition.head ++ definition.body = source.slice definition.start definition.stop := by
  obtain ⟨before, after, hsource, hstart, -⟩ := h
  have hstop := Definition.byteLength_through hstart
  refine ⟨?_, ?_⟩
  · rw [← hstop, hsource]
    simp only [Text.byteLength_append]
    omega
  · exact (Text.slice_eq_between after hsource hstart hstop).symm

theorem exists_split?_of_mem {definition : Definition}
    (hmem : definition ∈ (extractor.extract source).definitions) :
    ∃ inner text rest, definition.body = '{' :: inner ∧
      Block.split? extractor.mode text = some (inner, rest) := by
  obtain ⟨signature, -, hread⟩ := exists_isReadFrom hmem
  obtain ⟨inner, rest, hsplit, hbody⟩ := hread.body
  exact ⟨inner, signature.afterBrace, rest, hbody, hsplit⟩

theorem body_ne_nil {definition : Definition}
    (hmem : definition ∈ (extractor.extract source).definitions) : definition.body ≠ [] := by
  obtain ⟨inner, _, _, hbody, -⟩ := exists_split?_of_mem hmem
  rw [hbody]
  exact List.cons_ne_nil _ _

theorem head?_dropBytes_bodyOffset {definition : Definition} (h : definition.StandsIn source) :
    (source.dropBytes definition.bodyOffset).head? =
      (definition.body ++ source.dropBytes definition.stop).head? := by
  obtain ⟨before, after, hsource, hstart, -⟩ := h
  have hoffset : (before ++ definition.head).byteLength = definition.bodyOffset := by
    rw [Text.byteLength_append, hstart, Definition.bodyOffset]
  have hbody : source = (before ++ definition.head) ++ (definition.body ++ after) := by
    simp [hsource]
  have hafter : source = (before ++ (definition.head ++ definition.body)) ++ after := by
    simp [hsource]
  have hbehind : source.dropBytes definition.stop = after := by
    rw [← Definition.byteLength_through hstart, hafter, Text.dropBytes_append]
  rw [hbehind, ← hoffset, hbody, Text.dropBytes_append]

theorem line_eq_count {definition : Definition}
    (hmem : definition ∈ (extractor.extract source).definitions)
    (h : definition.StandsIn source) :
    definition.line = 1 + (source.takeBytes definition.start).count '\n' := by
  obtain ⟨before, after, hsource, hstart, -⟩ := h
  obtain ⟨signature, -, hread⟩ := exists_isReadFrom hmem
  rw [hread.line, ← hread.start, ← hstart, hsource, Text.takeBytes_append,
    Text.lineAt_byteLength]

/-- An extraction is faithful to its source. -/
theorem isFaithful_extract (extractor : Extractor) (source : Text) :
    (extractor.extract source).IsFaithful extractor source := by
  have hlaid := laidOut_definitions extractor source
  refine
    { matched := map_signature_candidatesFrom extractor source none _
      located := fun _ hmem => line_of_mem_candidatesFrom hmem
      stands := fun _ hmem => hlaid.standsIn hmem
      inside := fun _ hmem =>
        ⟨Definition.start_lt_stop (body_ne_nil hmem), (slice_of_standsIn (hlaid.standsIn hmem)).1⟩
      disjoint := (hlaid.pairwise fun _ hmem => body_ne_nil hmem).2
      span := fun _ hmem => (slice_of_standsIn (hlaid.standsIn hmem)).2
      opens := ?_
      closes := ?_
      balanced := ?_
      line := fun _ hmem => line_eq_count hmem (hlaid.standsIn hmem)
      firstComment := fun _ hfirst => comment_eq_nil_of_head? hfirst
      counted := Extraction.length_candidates _
      warned := Extraction.filter_diagnostics _ }
  · intro definition hmem
    obtain ⟨inner, _, _, hbody, -⟩ := exists_split?_of_mem hmem
    rw [head?_dropBytes_bodyOffset (hlaid.standsIn hmem), hbody]
    rfl
  · intro definition hmem
    obtain ⟨inner, _, _, hbody, hsplit⟩ := exists_split?_of_mem hmem
    rw [hbody, List.getLast?_cons, Block.getLast?_of_splitFrom? hsplit]
    rfl
  · intro definition hmem
    obtain ⟨inner, _, _, hbody, hsplit⟩ := exists_split?_of_mem hmem
    rw [hbody]
    exact Block.ofText_of_split? hsplit

end Extractor

end MemberSplit
