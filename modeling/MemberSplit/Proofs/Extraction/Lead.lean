import MemberSplit.Proofs.Extraction.Completeness
import MemberSplit.Proofs.Extraction.Invariant
import MemberSplit.Proofs.Signature.Front

/-!
# Cutting a source in front of its first definition

Every signature that begins in front of the first definition has a body that never closes. Put
another text in place of the first definition and all that is behind it: if that text has no opening
brace, then nothing is extracted, unless it closes one of these bodies.
-/

namespace MemberSplit

/-- With another text behind a cut, the body of a candidate is closed that never closes in the
source. -/
def Extraction.ClosedBy (extraction : Extraction) (mode : ScanMode) (behind behind' : Text) :
    Prop :=
  ∃ candidate ∈ extraction.candidates, candidate.fate = .unterminated ∧
    ∃ rest, candidate.signature.afterBrace = rest ++ behind ∧
      (Block.split? mode (rest ++ behind')).isSome

theorem Extraction.not_closedBy_of_unterminated {extraction : Extraction} {mode : ScanMode}
    {behind behind' : Text} (h : extraction.unterminated = 0) :
    ¬extraction.ClosedBy mode behind behind' := by
  rintro ⟨candidate, hcandidate, hfate, -⟩
  have hother := List.countP_eq_zero.mp h candidate hcandidate
  simp [hfate] at hother

/-- A block that is closed by what was put behind a text is closed by a brace there. -/
theorem Block.split?_append_eq_none {mode : ScanMode} {rest behind behind' : Text}
    (h : split? mode (rest ++ behind) = none) (hbehind : '}' ∉ behind') :
    split? mode (rest ++ behind') = none := by
  rw [Option.eq_none_iff_forall_ne_some]
  rintro ⟨inner, others⟩ hsplit
  rcases List.append_eq_append_iff.mp (splitFrom?_append hsplit) with
    ⟨more, hrest, -⟩ | ⟨tail, hinner, hothers⟩
  · have hsame := splitFrom?_congr hsplit (more ++ behind)
    rw [← List.append_assoc, ← hrest] at hsame
    exact absurd (h.symm.trans hsame) (by simp)
  · cases tail with
    | nil =>
        have hsame := splitFrom?_congr hsplit behind
        rw [hinner, List.append_nil] at hsame
        exact absurd (h.symm.trans hsame) (by simp)
    | cons c tail =>
        -- The last character of the block is its closing brace.
        have hlast := getLast?_of_splitFrom? hsplit
        rw [hinner, List.getLast?_append_of_ne_nil _ (List.cons_ne_nil c tail)] at hlast
        apply hbehind
        rw [hothers]
        exact List.mem_append_left _ (List.mem_of_getLast? hlast)

namespace Extractor

variable {extractor : Extractor} {source : Text} {signatures : List Signature}

theorem split?_of_unterminated {previousStop : Option Nat} {candidate : Candidate}
    (hmem : candidate ∈ extractor.candidatesFrom source previousStop signatures)
    (hfate : candidate.fate = .unterminated) :
    Block.split? extractor.mode candidate.signature.afterBrace = none := by
  induction signatures generalizing previousStop with
  | nil => cases hmem
  | cons signature others ih =>
      simp only [candidatesFrom] at hmem
      split at hmem
      next =>
        rcases List.mem_cons.mp hmem with rfl | hlater
        · cases hfate
        · exact ih hlater
      next =>
        split at hmem
        next hnone =>
          rcases List.mem_cons.mp hmem with rfl | hlater
          · exact hnone
          · exact ih hlater
        next =>
          rcases List.mem_cons.mp hmem with rfl | hlater
          · cases hfate
          · exact ih hlater

/-- As long as nothing has been extracted, no candidate is nested. -/
theorem candidatesFrom_of_none {signature : Signature} {others : List Signature}
    (h : Block.split? extractor.mode signature.afterBrace = none) :
    extractor.candidatesFrom source none (signature :: others) =
      ⟨signature, source.lineAt signature.start, .unterminated⟩ ::
        extractor.candidatesFrom source none others := by
  simp only [candidatesFrom, Option.getD_none, Nat.not_lt_zero, if_false, h]

theorem exists_definition_of_some {signature : Signature} {block : Text × Text}
    (h : Block.split? extractor.mode signature.afterBrace = some block) (source : Text)
    (others : List Signature) :
    ∃ definition rest, definition.start = signature.start ∧
      (extractor.candidatesFrom source none (signature :: others)).filterMap
        Candidate.definition? = definition :: rest := by
  simp only [candidatesFrom, Option.getD_none, Nat.not_lt_zero, if_false, h]
  exact ⟨_, _, rfl, rfl⟩

/-- Nothing is extracted exactly if no body closes. -/
theorem definitions_eq_nil_iff (extractor : Extractor) (source : Text) :
    (extractor.extract source).definitions = [] ↔
      ∀ signature ∈ extractor.pattern.signatures source,
        Block.split? extractor.mode signature.afterBrace = none := by
  simp only [Extraction.definitions, extract, candidates]
  induction extractor.pattern.signatures source with
  | nil => simp [candidatesFrom]
  | cons signature others ih =>
      rw [List.forall_mem_cons]
      cases hsplit : Block.split? extractor.mode signature.afterBrace with
      | none =>
          rw [candidatesFrom_of_none hsplit, List.filterMap_cons_none rfl, ih]
          simp
      | some block =>
          obtain ⟨definition, rest, -, hdefinitions⟩ :=
            exists_definition_of_some hsplit source others
          simp [hdefinitions]

theorem unterminated_of_lt_start {definition : Definition} {rest : List Definition}
    (horder : signatures.Pairwise fun earlier later => earlier.openingBrace < later.start)
    (hfirst : (extractor.candidatesFrom source none signatures).filterMap
      Candidate.definition? = definition :: rest) {signature : Signature}
    (hmem : signature ∈ signatures) (hstart : signature.start < definition.start) :
    signature.openingBrace < definition.start ∧
      ∃ candidate ∈ extractor.candidatesFrom source none signatures,
        candidate.signature = signature ∧ candidate.fate = .unterminated := by
  induction signatures with
  | nil => cases hmem
  | cons head others ih =>
      obtain ⟨hhead, hothers⟩ := List.pairwise_cons.mp horder
      cases hsplit : Block.split? extractor.mode head.afterBrace with
      | some block =>
          -- The first signature is that of the first definition, and all others are behind it.
          obtain ⟨definition', rest', hsame, hdefinitions⟩ :=
            exists_definition_of_some hsplit source others
          rw [hdefinitions] at hfirst
          obtain ⟨rfl, -⟩ := List.cons.inj hfirst
          rcases List.mem_cons.mp hmem with rfl | hlater
          · omega
          · have hbehind := hhead signature hlater
            rw [Signature.openingBrace] at hbehind
            omega
      | none =>
          rw [candidatesFrom_of_none hsplit] at hfirst ⊢
          rw [List.filterMap_cons_none rfl] at hfirst
          rcases List.mem_cons.mp hmem with rfl | hlater
          · refine ⟨?_, _, List.mem_cons_self, rfl, rfl⟩
            obtain ⟨other, hother, hread⟩ := exists_isReadFrom_of_candidatesFrom
              (hfirst ▸ List.mem_cons_self)
            rw [hread.start]
            exact hhead other hother
          · obtain ⟨hbrace, candidate, hcandidate, hfound⟩ := ih hothers hfirst hlater
            exact ⟨hbrace, candidate, List.mem_cons_of_mem _ hcandidate, hfound⟩

theorem signature_mem_of_mem_candidates {candidate : Candidate}
    (hmem : candidate ∈ (extractor.extract source).candidates) :
    candidate.signature ∈ extractor.pattern.signatures source :=
  map_signature_candidatesFrom extractor source none (extractor.pattern.signatures source) ▸
    List.mem_map_of_mem hmem

variable {opening lead behind behind' : Text}

theorem start_lt_of_standsIn {signature : Signature} {rest : Text}
    (h : signature.StandsIn (lead ++ behind)) (hrest : signature.afterBrace = rest ++ behind) :
    signature.start < lead.byteLength := by
  obtain ⟨before, hsource, hstart, -⟩ := h
  have hlead : lead = before ++ (signature.head ++ '{' :: rest) := by
    rw [hrest] at hsource
    rw [← List.append_cancel_right_eq _ behind _, hsource]
    simp
  have hone : Char.utf8Size '{' = 1 := by decide
  rw [hlead, Text.byteLength_append, Text.byteLength_append, Text.byteLength, hone]
  omega

theorem split?_iff_of_agreeUpTo {mode : ScanMode} {old new : Signature}
    (h : Signature.Pattern.AgreeUpTo behind behind' old new) :
    (∀ rest, old.afterBrace = rest ++ behind → Block.split? mode (rest ++ behind') = none) ↔
      Block.split? mode new.afterBrace = none := by
  obtain ⟨-, rest, hold, hnew⟩ := h
  rw [hnew]
  refine ⟨fun hnone => hnone rest hold, fun hnone other hother => ?_⟩
  rw [← List.append_cancel_right (hold.symm.trans hother)]
  exact hnone

theorem forall_iff_of_forall₂ {α β : Type} {agree : α → β → Prop} {p : α → Prop} {q : β → Prop}
    {old : List α} {new : List β} (h : List.Forall₂ agree old new)
    (hsame : ∀ a b, agree a b → (p a ↔ q b)) : (∀ a ∈ old, p a) ↔ ∀ b ∈ new, q b := by
  induction h with
  | nil => simp
  | cons hhead _ ih => rw [List.forall_mem_cons, List.forall_mem_cons, hsame _ _ hhead, ih]

/-- A source is cut at its first definition and another text is put there. Then something is
extracted exactly if that text closes a body in front of the cut. -/
theorem definitions_eq_nil_iff_of_cut {first : Definition} {others : List Definition}
    (hfirst : (extractor.extract (lead ++ behind)).definitions = first :: others)
    (hstart : first.start = lead.byteLength)
    (hopening : extractor.pattern.Barren true opening)
    (hline : Signature.Pattern.lineStartsBehind true opening = true)
    (hbehind : '{' ∉ behind') :
    (extractor.extract (opening ++ (lead ++ behind'))).definitions = [] ↔
      ¬(extractor.extract (lead ++ behind)).ClosedBy extractor.mode behind behind' := by
  have hfront : ∀ signature ∈ extractor.pattern.signatures (lead ++ behind),
      signature.start < lead.byteLength → signature.openingBrace < lead.byteLength ∧
        ∃ candidate ∈ (extractor.extract (lead ++ behind)).candidates,
          candidate.signature = signature ∧ candidate.fate = .unterminated := by
    intro signature hmem
    rw [← hstart]
    exact unterminated_of_lt_start (extractor.pattern.pairwise_signaturesFrom 0 true _) hfirst hmem
  have hbraces : ∀ signature ∈ extractor.pattern.signaturesFrom 0 true (lead ++ behind),
      signature.start < 0 + lead.byteLength →
        signature.openingBrace < 0 + lead.byteLength := by
    intro signature hmem hlt
    rw [Nat.zero_add] at hlt ⊢
    exact (hfront signature hmem hlt).1
  have hagree := Signature.Pattern.forall₂_signaturesFrom hbehind opening.byteLength hbraces
  rw [definitions_eq_nil_iff, Signature.Pattern.signatures, hopening.signaturesFrom_append, hline,
    Nat.zero_add, ← forall_iff_of_forall₂ hagree fun _ _ => split?_iff_of_agreeUpTo]
  constructor
  · rintro hnone ⟨candidate, hcandidate, -, rest, hrest, hclosed⟩
    have hmem := signature_mem_of_mem_candidates hcandidate
    have hlt := start_lt_of_standsIn (Signature.Pattern.standsIn_of_mem_signatures hmem) hrest
    rw [hnone _ (List.mem_filter.mpr ⟨hmem, by simpa using hlt⟩) rest hrest] at hclosed
    cases hclosed
  · intro hopen signature hmem rest hrest
    obtain ⟨hmem, hlt⟩ := List.mem_filter.mp hmem
    obtain ⟨-, candidate, hcandidate, rfl, hfate⟩ :=
      hfront signature hmem (by simpa using hlt)
    by_contra hsome
    exact hopen ⟨candidate, hcandidate, hfate, rest, hrest, Option.isSome_iff_ne_none.mpr hsome⟩

/-- Without a brace of its own, a text behind a cut closes nothing. -/
theorem not_closedBy_of_not_mem (source : Text) (hbehind : '}' ∉ behind') :
    ¬(extractor.extract source).ClosedBy extractor.mode behind behind' := by
  rintro ⟨candidate, hcandidate, hfate, rest, hrest, hclosed⟩
  have hopen := split?_of_unterminated hcandidate hfate
  rw [hrest] at hopen
  rw [Block.split?_append_eq_none hopen hbehind] at hclosed
  cases hclosed

end Extractor

end MemberSplit
