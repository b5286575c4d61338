import MemberSplit.Extraction.Basic
import MemberSplit.Proofs.Brace.Block
import MemberSplit.Proofs.Signature.Place

/-!
# Where definitions stand

The definitions that are extracted from a source stand in it one behind the other, so that the
source is its lead and then, in turn, each definition and the gap behind it. No character is in two
of these parts, and none is in no part.
-/

namespace MemberSplit

namespace Definition

/-- The definition is part of the source at the offset that it tells, on a new line. -/
def StandsIn (definition : Definition) (source : Text) : Prop :=
  ∃ before after, source = before ++ (definition.head ++ definition.body ++ after) ∧
    before.byteLength = definition.start ∧ before.EndsLine

/-- The definitions stand in the source, each behind the one before it and the first one not
before `stop`. -/
def LaidOut (source : Text) : (stop : Nat) → List Definition → Prop
  | _, [] => True
  | stop, definition :: rest =>
    stop ≤ definition.start ∧ definition.StandsIn source ∧ LaidOut source definition.stop rest

/-- The text behind each of some definitions, up to the next one or the end of the source. -/
def gapTexts (source : Text) : List Definition → List Text
  | [] => []
  | [last] => [source.slice last.stop source.byteLength]
  | definition :: next :: rest =>
    source.slice definition.stop next.start :: gapTexts source (next :: rest)

/-- Definitions as they are written, each with a gap behind it. -/
def spell (definitions : List Definition) (gaps : List Text) : Text :=
  (List.zipWith (fun definition gap => definition.head ++ definition.body ++ gap)
    definitions gaps).flatten

theorem length_gapTexts (source : Text) (definitions : List Definition) :
    (gapTexts source definitions).length = definitions.length := by
  fun_induction gapTexts source definitions with
  | case1 => rfl
  | case2 => rfl
  | case3 definition next rest ih => simpa using ih

theorem byteLength_through {definition : Definition} {before : Text}
    (hstart : before.byteLength = definition.start) :
    (before ++ (definition.head ++ definition.body)).byteLength = definition.stop := by
  rw [Text.byteLength_append, Text.byteLength_append, hstart]
  simp only [stop, bodyOffset]
  omega

/-- From a definition on, a source is its definitions and the gaps behind them. -/
theorem eq_spell_gapTexts {source before after : Text} {definition : Definition}
    {rest : List Definition}
    (hsource : source = before ++ (definition.head ++ definition.body ++ after))
    (hstart : before.byteLength = definition.start)
    (hrest : LaidOut source definition.stop rest) :
    definition.head ++ definition.body ++ after =
      spell (definition :: rest) (gapTexts source (definition :: rest)) := by
  have hstop := byteLength_through hstart
  have hcut : source = (before ++ (definition.head ++ definition.body)) ++ after := by
    simp [hsource]
  induction rest generalizing definition before after with
  | nil =>
      have hgap : source.slice definition.stop source.byteLength = after :=
        Text.slice_eq_between [] (by simpa using hcut) hstop (by rw [← hcut])
      simp [gapTexts, spell, hgap]
  | cons next others ih =>
      obtain ⟨horder, ⟨before', after', hsource', hstart', -⟩, hothers⟩ := hrest
      obtain ⟨gap, hbefore', hafter⟩ := Text.exists_between (hcut.symm.trans hsource')
        (by rw [hstop, hstart']; exact horder)
      have hgap : source.slice definition.stop next.start = gap :=
        Text.slice_eq_between _ (hafter ▸ hcut) hstop (by rw [← hbefore', hstart'])
      have hnext := ih hsource' hstart' hothers (byteLength_through hstart') (by simp [hsource'])
      simp only [gapTexts, spell, List.zipWith_cons_cons, List.flatten_cons] at hnext ⊢
      rw [hgap, hafter, hnext, List.append_assoc _ gap]

/-- What is cut off in front of the first definition of a source is its lead, which ends a line;
the rest is definitions and gaps. -/
theorem takeBytes_append_spell {source : Text} {first : Definition} {rest : List Definition}
    (h : LaidOut source 0 (first :: rest)) :
    source = source.takeBytes first.start ++
        spell (first :: rest) (gapTexts source (first :: rest)) ∧
      (source.takeBytes first.start).EndsLine := by
  obtain ⟨-, ⟨before, after, hsource, hstart, hline⟩, hrest⟩ := h
  have hlead : source.takeBytes first.start = before := by
    rw [← hstart, hsource, Text.takeBytes_append]
  rw [hlead, ← eq_spell_gapTexts hsource hstart hrest]
  exact ⟨hsource, hline⟩

end Definition

namespace Extractor

/-- The candidates' definitions are laid out behind the definition that was extracted last: a
signature in front of its end is nested, and one whose body never closes has no definition. -/
theorem laidOut_candidatesFrom {extractor : Extractor} {source : Text}
    (previousStop : Option Nat) {signatures : List Signature}
    (hstand : ∀ signature ∈ signatures, signature.StandsIn source) :
    Definition.LaidOut source (previousStop.getD 0)
      ((extractor.candidatesFrom source previousStop signatures).filterMap
        Candidate.definition?) := by
  induction signatures generalizing previousStop with
  | nil => exact trivial
  | cons signature others ih =>
      have hothers := fun other hother => hstand other (List.mem_cons_of_mem _ hother)
      simp only [candidatesFrom]
      split
      next => exact ih _ hothers
      next hbehind =>
        split
        next => exact ih _ hothers
        next inner rest hsplit =>
          obtain ⟨before, hsource, hstart, hline⟩ := hstand signature List.mem_cons_self
          refine ⟨Nat.le_of_not_lt hbehind, ⟨before, rest, ?_, hstart, hline⟩,
            ih (some _) hothers⟩
          rw [hsource, ← Block.splitFrom?_append hsplit]
          simp

theorem laidOut_definitions (extractor : Extractor) (source : Text) :
    Definition.LaidOut source 0 (extractor.extract source).definitions :=
  laidOut_candidatesFrom none fun _ hmem => Signature.Pattern.standsIn_of_mem_signatures hmem

/-- Each signature makes one candidate. -/
theorem map_signature_candidatesFrom (extractor : Extractor) (source : Text)
    (previousStop : Option Nat) (signatures : List Signature) :
    (extractor.candidatesFrom source previousStop signatures).map Candidate.signature =
      signatures := by
  induction signatures generalizing previousStop with
  | nil => rfl
  | cons signature others ih =>
      simp only [candidatesFrom]
      split
      next => rw [List.map_cons, ih]
      next => split <;> rw [List.map_cons, ih]

/-- A candidate tells the line on which its signature starts. -/
theorem line_of_mem_candidatesFrom {extractor : Extractor} {source : Text}
    {previousStop : Option Nat} {signatures : List Signature} {candidate : Candidate}
    (hmem : candidate ∈ extractor.candidatesFrom source previousStop signatures) :
    candidate.line = source.lineAt candidate.signature.start := by
  induction signatures generalizing previousStop with
  | nil => cases hmem
  | cons signature others ih =>
      simp only [candidatesFrom] at hmem
      split at hmem
      next =>
        rcases List.mem_cons.mp hmem with rfl | hothers
        · rfl
        · exact ih hothers
      next =>
        split at hmem
        next =>
          rcases List.mem_cons.mp hmem with rfl | hothers
          · rfl
          · exact ih hothers
        next =>
          rcases List.mem_cons.mp hmem with rfl | hothers
          · rfl
          · exact ih hothers

end Extractor

end MemberSplit
